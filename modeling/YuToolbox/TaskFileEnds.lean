import YuToolbox.TaskFileGlobals

/-! `awk.awk`: when `oparse_taskfile` returns. `getline` gives 1 for a record, 0 at the end of the
file and -1 for an error, and the loop goes on while the result is not 0. -/
namespace YuToolbox.TaskGlobals

open Awk StepRuns

/-- What stands under each name. A file that is missing, that may not be read or that is a
directory is `broken`; so is one whose device fails behind some of its records. -/
structure FileSystem where
  file : Text → TaskFile.File
  -- an unset `e_file` is the empty name, and no file has it
  nameless : (file []).broken = true

/-- `tasks`, as `BEGIN` computes it. -/
def tasks (fuel : ℕ) (fs : FileSystem) (eFile eTag : Text) : Option Text :=
  oparseTaskfile fuel (fs.file eFile) (TaskFile.aligin eTag) fresh

end YuToolbox.TaskGlobals
