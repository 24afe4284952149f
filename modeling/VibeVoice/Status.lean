/-!
The status codes of `types.h` and their texts (`error.c`).

A C function that returns `vv_status_t` is modelled by a result in `Except Status`: `VV_OK` is
`.ok`, and `Status` lists the other codes, so that no error carries the success code.
-/

namespace VibeVoice

/-- `vv_status_t` without `VV_OK`. -/
inductive Status
  | invalidArg | nullPtr | outOfMemory | notFound | io | parse | unsupported | overflow
  | shapeMismatch | kvPoolExhausted | cancelled | busy
  | cuda | cudaOom | cudaLaunch
  | trt | trtBuild | trtRuntime
  | modelFormat | modelVersion | weightMissing
  | audioFormat | audioResample
  deriving DecidableEq, Repr

/-- What can end a call that reads buffers: a status, or a read outside of one. -/
abbrev Checked := ExceptT Status Option

/-- `vv_status_str`. -/
def statusStr : Status → String
  | .invalidArg => "Invalid argument"
  | .nullPtr => "Null pointer"
  | .outOfMemory => "Out of memory"
  | .notFound => "Not found"
  | .io => "I/O error"
  | .parse => "Parse error"
  | .unsupported => "Unsupported"
  | .overflow => "Overflow"
  | .shapeMismatch => "Shape mismatch"
  | .kvPoolExhausted => "KV page pool exhausted"
  | .cancelled => "Cancelled"
  | .busy => "Every slot is busy"
  | .cuda => "CUDA error"
  | .cudaOom => "CUDA out of memory"
  | .cudaLaunch => "CUDA kernel launch failed"
  | .trt => "TensorRT error"
  | .trtBuild => "TensorRT build failed"
  | .trtRuntime => "TensorRT runtime error"
  | .modelFormat => "Invalid model format"
  | .modelVersion => "Unsupported model version"
  | .weightMissing => "Missing weight tensor"
  | .audioFormat => "Unsupported audio format"
  | .audioResample => "Audio resampling failed"

end VibeVoice
