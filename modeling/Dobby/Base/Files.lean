import Dobby.Base.CString
import Mathlib.Logic.Function.Basic

namespace Dobby

/-- The files of a disk by path. -/
abbrev Fs := Str → Option Str

namespace Fs

def write (fs : Fs) (path content : Str) : Fs := Function.update fs path (some content)

/-- `fopen` with `"a"` makes a file that is missing. -/
def append (fs : Fs) (path content : Str) : Fs :=
  fs.write path ((fs path).getD [] ++ content)

def unlink (fs : Fs) (path : Str) : Fs := Function.update fs path none

def rename (fs : Fs) (source target : Str) : Fs :=
  Function.update (Function.update fs target (fs source)) source none

theorem write_of_ne {fs : Fs} {path p : Str} (h : p ≠ path) (content : Str) :
    fs.write path content p = fs p := Function.update_of_ne h ..

theorem write_self (fs : Fs) (path content : Str) : fs.write path content path = some content :=
  Function.update_self ..

theorem rename_target {fs : Fs} {source target : Str} (h : target ≠ source) :
    fs.rename source target target = fs source := by
  rw [rename, Function.update_of_ne h, Function.update_self]

theorem unlink_of_ne {fs : Fs} {path p : Str} (h : p ≠ path) : fs.unlink path p = fs p :=
  Function.update_of_ne h ..

theorem rename_of_ne {fs : Fs} {source target p : Str} (hs : p ≠ source) (ht : p ≠ target) :
    fs.rename source target p = fs p := by
  rw [rename, Function.update_of_ne hs, Function.update_of_ne ht]

end Fs
end Dobby
