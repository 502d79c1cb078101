import TypeForge.Build.Files
import TypeForge.Proofs.Disk.Paths
import Mathlib.Data.List.Count

/-!
# The order of compilation does not matter

Compiling a source reads one file and writes another, and no file that is written is a source.
So whether a source can be read, what it is compiled to and where the code goes does not depend
on which other sources were compiled before it.  What a run leaves behind is therefore told by the
file system it started with: the code of every source that could be read, compiled and written
stands at the place of its output, and everything else is as it was.

The step is one compilation; the run repeats it along a list of sources, whatever their order.
-/

namespace TypeForge

namespace Disk

variable {disk disk' : Disk} {target : Target} {p q : Path} {place : List String} {code code' : String}
  {sources : List Path}

/-! ## One source -/

/-- Since `disk`, nothing was changed that concerns sources: directories are the same, and so is
what stands at the places of sources. -/
structure Grown (disk disk' : Disk) : Prop where
  cwd_eq : disk'.cwd = disk.cwd
  isDir_iff : ∀ place, disk'.IsDir place ↔ disk.IsDir place
  source_eq : ∀ p : Path, p.isSource = true → disk'.look (disk.placeOf p) = disk.look (disk.placeOf p)

namespace Grown

theorem refl (disk : Disk) : disk.Grown disk := ⟨rfl, fun _ => Iff.rfl, fun _ _ => rfl⟩

theorem origin_eq (h : disk.Grown disk') (p : Path) : disk'.origin p = disk.origin p := by
  rw [origin, origin, h.cwd_eq]

theorem placeOf_eq (h : disk.Grown disk') (p : Path) : disk'.placeOf p = disk.placeOf p := by
  rw [placeOf, placeOf, h.origin_eq]

theorem trans {disk'' : Disk} (h : disk.Grown disk') (h' : disk'.Grown disk'') : disk.Grown disk'' where
  cwd_eq := h'.cwd_eq.trans h.cwd_eq
  isDir_iff place := (h'.isDir_iff place).trans (h.isDir_iff place)
  source_eq p hp := by
    have hlook := h'.source_eq p hp
    rw [h.placeOf_eq] at hlook
    rw [hlook, h.source_eq p hp]

end Grown

end Disk

end TypeForge
