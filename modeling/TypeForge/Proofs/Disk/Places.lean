import TypeForge.Disk
import Mathlib.Tactic.ByContra

/-!
# What stands where in a file system

A file system is a tree, but what can be told of it from outside is what stands at each place:
a file with its contents and time, a directory, or nothing.  The order in which a directory
lists its entries is not part of that.  Reading and writing are described in these terms: a path
leads to a place through directories, a text is read from the file there, and writing changes
what stands there and nothing else.
-/

namespace TypeForge

/-- A sequence succeeds if its parts do. -/
theorem except_bind_eq_ok_iff {ε α β : Type} {x : Except ε α} {f : α → Except ε β} {b : β} :
    (x >>= f) = .ok b ↔ ∃ a, x = .ok a ∧ f a = .ok b := by
  cases x with
  | error e =>
    constructor
    · intro h
      cases h
    · rintro ⟨_, h, -⟩
      cases h
  | ok a =>
    constructor
    · intro h
      exact ⟨a, rfl, h⟩
    · rintro ⟨_, h, h'⟩
      cases h
      exact h'

namespace Entry

/-- What can be seen of an entry without opening it: the contents and the time of a file. -/
def face : Entry → Option (ByteArray × Nat)
  | file contents modified => some (contents, modified)
  | dir _ => none

@[simp] theorem face_file (contents : ByteArray) (modified : Nat) :
    (file contents modified).face = some (contents, modified) := rfl

@[simp] theorem face_dir (entries : List (String × Entry)) : (dir entries).face = none := rfl

theorem face_eq_none_iff {e : Entry} : e.face = none ↔ ∃ entries, e = dir entries := by
  cases e <;> simp

theorem lookup_putNamed (name other : String) (new : Entry) (entries : List (String × Entry)) :
    (putNamed name new entries).lookup other =
      if other = name then some new else entries.lookup other := by
  have hother (n : String) : (other == n) = decide (other = n) := rfl
  induction entries with
  | nil =>
    rw [putNamed, List.lookup_cons, hother]
    by_cases h : other = name <;> simp [h]
  | cons entry entries ih =>
    obtain ⟨n, e⟩ := entry
    by_cases hn : n = name
    · subst hn
      rw [putNamed, if_pos rfl, List.lookup_cons, List.lookup_cons, hother]
      by_cases h : other = n <;> simp [h]
    · rw [putNamed, if_neg hn, List.lookup_cons, List.lookup_cons, hother, ih]
      by_cases h : other = n
      · subst h
        simp [hn]
      · simp [h]

@[simp] theorem get?_nil (e : Entry) : e.get? [] = some e := by
  cases e <;> rfl

@[simp] theorem get?_file (name : String) (names : List String) (contents : ByteArray) (modified : Nat) :
    (file contents modified).get? (name :: names) = none := rfl

theorem get?_dir (name : String) (names : List String) (entries : List (String × Entry)) :
    (dir entries).get? (name :: names) = (entries.lookup name).bind (get? names) := by
  rw [get?]
  cases entries.lookup name <;> rfl

/-- What stands at a place, if anything does. -/
def look (e : Entry) (place : List String) : Option (Option (ByteArray × Nat)) :=
  (e.get? place).map face

@[simp] theorem look_file (name : String) (names : List String) (contents : ByteArray) (modified : Nat) :
    (file contents modified).look (name :: names) = none := rfl

end Entry

namespace Disk

variable {disk disk' : Disk} {p : Path} {place : List String}

/-- What stands at a place: a file with its contents and time, a directory, or nothing. -/
def look (disk : Disk) (place : List String) : Option (Option (ByteArray × Nat)) :=
  disk.tree.look place

/-- There is a directory at the place. -/
def IsDir (disk : Disk) (place : List String) : Prop := disk.look place = some none

/-- The two file systems have the same at every place, and the same working directory. -/
structure Same (disk disk' : Disk) : Prop where
  cwd_eq : disk.cwd = disk'.cwd
  look_eq : ∀ place, disk.look place = disk'.look place

theorem isDir_iff : disk.IsDir place ↔ ∃ entries, disk.tree.get? place = some (.dir entries) := by
  unfold IsDir look Entry.look
  cases disk.tree.get? place with
  | none => simp
  | some e => simp [Entry.face_eq_none_iff]

theorem entriesAt_eq_ok_iff {entries : List (String × Entry)} :
    disk.entriesAt place = .ok entries ↔ disk.tree.get? place = some (.dir entries) := by
  unfold entriesAt
  split <;> simp_all

/-- Every place that is left is a directory. -/
theorem follow_eq_ok_iff {segments : List String} {goal : List String} :
    disk.follow place segments = .ok goal ↔
      (∀ n < segments.length, disk.IsDir ((segments.take n).foldl step place)) ∧
        goal = segments.foldl step place := by
  induction segments generalizing place with
  | nil => simp [follow, eq_comm]
  | cons segment segments ih =>
    have hstep : disk.follow place (segment :: segments) = .ok goal ↔
        disk.IsDir place ∧ disk.follow (step place segment) segments = .ok goal := by
      rw [follow, except_bind_eq_ok_iff, isDir_iff]
      simp only [entriesAt_eq_ok_iff, exists_and_right]
    rw [hstep, ih, List.foldl_cons, ← and_assoc]
    refine and_congr_left fun _ => ⟨?_, ?_⟩
    · rintro ⟨hfirst, hrest⟩ n hn
      cases n with
      | zero => exact hfirst
      | succ n => exact hrest n (Nat.lt_of_succ_lt_succ hn)
    · intro h
      exact ⟨h 0 (Nat.succ_pos _), fun n hn => h (n + 1) (Nat.succ_lt_succ hn)⟩

/-- **Where a path leads**: through directories all the way. -/
theorem locate_eq_ok_iff :
    disk.locate p = .ok place ↔ p.text ≠ "" ∧
      (∀ n < p.segments.length, disk.IsDir ((p.segments.take n).foldl step (disk.origin p))) ∧
        place = disk.placeOf p := by
  unfold locate
  by_cases h : p.text = ""
  · simp [h]
  · rw [if_neg h, follow_eq_ok_iff]
    exact ⟨fun hway => ⟨h, hway⟩, fun hway => hway.2⟩

/-! ## Files -/

theorem entry_eq_ok_iff {e : Entry} :
    disk.entry p = .ok e ↔ ∃ place, disk.locate p = .ok place ∧ disk.tree.get? place = some e := by
  rw [entry, except_bind_eq_ok_iff]
  refine exists_congr fun place => and_congr_right fun _ => ?_
  cases disk.tree.get? place with
  | none => exact ⟨fun h => (nomatch h), fun h => (nomatch h)⟩
  | some found => exact ⟨fun h => by cases h; rfl, fun h => by cases h; rfl⟩

theorem look_eq_file_iff {contents : ByteArray} {modified : Nat} :
    disk.look place = some (some (contents, modified)) ↔
      disk.tree.get? place = some (.file contents modified) := by
  unfold look Entry.look
  cases disk.tree.get? place with
  | none => simp
  | some e => cases e <;> simp

end Disk

end TypeForge
