import TypeForge.Proofs.Disk.Paths
import Mathlib.Data.List.Nodup

/-!
# Directories that list names

In a file system, every directory lists its entries under names that a path can spell, each name
once.  All changes of a file system keep it so.  It follows that the path of a directory, joined
with a listed name, leads to the listed entry.
-/

namespace TypeForge

/-! ## Names -/

/-- The name can stand between the slashes of a path and is taken for nothing else. -/
structure IsName (name : String) : Prop where
  ne_empty : name ≠ ""
  ne_dot : name ≠ "."
  ne_dots : name ≠ ".."
  no_slash : '/' ∉ name.toList

theorem notMem_of_mem_piecesBetween {separator : Char} {cs piece : List Char}
    (h : piece ∈ piecesBetween separator cs) : separator ∉ piece := by
  induction cs generalizing piece with
  | nil =>
    rw [List.mem_singleton.1 h]
    exact List.not_mem_nil
  | cons c cs ih =>
    rw [piecesBetween] at h
    by_cases hc : c = separator
    · rw [if_pos hc] at h
      obtain rfl | h := List.mem_cons.1 h
      · exact List.not_mem_nil
      · exact ih h
    · rw [if_neg hc] at h
      cases hpieces : piecesBetween separator cs with
      | nil => exact absurd hpieces (piecesBetween_ne_nil _ _)
      | cons first rest =>
        rw [hpieces] at h ih
        obtain rfl | h := List.mem_cons.1 h
        · simp [Ne.symm hc, ih List.mem_cons_self]
        · exact ih (List.mem_cons_of_mem _ h)

theorem Path.no_slash_of_mem_segments {p : Path} {segment : String} (h : segment ∈ p.segments) :
    '/' ∉ segment.toList := by
  obtain ⟨piece, hpiece, rfl⟩ := List.mem_map.1 h
  rw [String.toList_ofList]
  exact notMem_of_mem_piecesBetween hpiece

namespace Disk

theorem step_of_isName {name : String} (h : IsName name) (place : List String) :
    step place name = place ++ [name] := by
  rw [step, if_neg (not_or.2 ⟨h.ne_empty, h.ne_dot⟩), if_neg h.ne_dots]

theorem forall_isName_step {place : List String} {segment : String} (hplace : ∀ name ∈ place, IsName name)
    (hsegment : '/' ∉ segment.toList) : ∀ name ∈ step place segment, IsName name := by
  unfold step
  split
  · exact hplace
  · next hempty =>
    split
    · exact fun name hname => hplace name (List.dropLast_subset _ hname)
    · next hup =>
      intro name hname
      obtain hname | hname := List.mem_append.1 hname
      · exact hplace name hname
      · rw [List.mem_singleton.1 hname]
        exact ⟨fun h => hempty (.inl h), fun h => hempty (.inr h), hup, hsegment⟩

theorem forall_isName_foldl {segments place : List String} (hplace : ∀ name ∈ place, IsName name)
    (hsegments : ∀ segment ∈ segments, '/' ∉ segment.toList) :
    ∀ name ∈ segments.foldl step place, IsName name := by
  induction segments generalizing place with
  | nil => exact hplace
  | cons segment segments ih =>
    exact ih (forall_isName_step hplace (hsegments segment List.mem_cons_self))
      fun segment h => hsegments segment (List.mem_cons_of_mem _ h)

end Disk

/-! ## Well-formed trees -/

namespace Entry

/-- Directory entries with names, and each name once. -/
structure Listing (entries : List (String × Entry)) : Prop where
  nodup : (entries.map Prod.fst).Nodup
  isName : ∀ name ∈ entries.map Prod.fst, IsName name

/-- Every directory in the tree lists names, and each of them once. -/
def WellFormed (e : Entry) : Prop :=
  ∀ place entries, e.get? place = some (dir entries) → Listing entries

variable {e new : Entry} {entries : List (String × Entry)} {name : String} {names place : List String}

theorem wellFormed_file (contents : ByteArray) (modified : Nat) : (file contents modified).WellFormed := by
  intro place entries h
  cases place <;> simp at h

theorem wellFormed_dir_iff :
    (dir entries).WellFormed ↔ Listing entries ∧ ∀ name e, entries.lookup name = some e → e.WellFormed := by
  constructor
  · intro h
    refine ⟨h [] entries (get?_nil _), fun name e hfound place inner hinner => h (name :: place) inner ?_⟩
    rw [get?_dir, hfound]
    exact hinner
  · rintro ⟨hlisting, hinner⟩ place inner h
    cases place with
    | nil =>
      cases h
      exact hlisting
    | cons name place =>
      rw [get?_dir] at h
      obtain ⟨e, hfound, h⟩ := Option.bind_eq_some_iff.1 h
      exact hinner name e hfound place inner h

theorem wellFormed_empty : (dir []).WellFormed :=
  wellFormed_dir_iff.2 ⟨⟨List.nodup_nil, fun _ h => absurd h List.not_mem_nil⟩, fun _ _ h => (nomatch h)⟩

theorem map_fst_putNamed (name : String) (new : Entry) (entries : List (String × Entry)) :
    (putNamed name new entries).map Prod.fst =
      if name ∈ entries.map Prod.fst then entries.map Prod.fst else entries.map Prod.fst ++ [name] := by
  induction entries with
  | nil => rfl
  | cons entry entries ih =>
    obtain ⟨n, e⟩ := entry
    rw [putNamed]
    by_cases hn : n = name
    · subst hn
      simp
    · rw [if_neg hn, List.map_cons, ih]
      by_cases hmem : name ∈ entries.map Prod.fst
      · simp [hmem]
      · rw [if_neg hmem, if_neg]
        · rfl
        · exact fun h => hmem ((List.mem_cons.1 h).resolve_left (Ne.symm hn))

theorem Listing.putNamed (h : Listing entries) (hname : IsName name) (new : Entry) :
    Listing (putNamed name new entries) := by
  constructor
  · rw [map_fst_putNamed]
    split
    · exact h.nodup
    · next hmem => exact List.concat_eq_append ▸ h.nodup.concat hmem
  · intro n hn
    rw [map_fst_putNamed] at hn
    split at hn
    · exact h.isName n hn
    · obtain hn | hn := List.mem_append.1 hn
      · exact h.isName n hn
      · exact List.mem_singleton.1 hn ▸ hname

/-- **What is put into a well-formed tree under names leaves it well-formed.** -/
theorem WellFormed.setAt (h : e.WellFormed) (hnew : new.WellFormed) (hplace : ∀ name ∈ place, IsName name) :
    (setAt new place e).WellFormed := by
  induction place generalizing e with
  | nil =>
    cases e <;> exact hnew
  | cons name names ih =>
    cases e with
    | file contents modified => exact h
    | dir entries =>
      obtain ⟨hlisting, hinner⟩ := wellFormed_dir_iff.1 h
      refine wellFormed_dir_iff.2 ⟨hlisting.putNamed (hplace name List.mem_cons_self) _, ?_⟩
      intro n e hfound
      rw [lookup_putNamed] at hfound
      split at hfound
      · cases hfound
        refine ih ?_ fun name hname => hplace name (List.mem_cons_of_mem _ hname)
        cases hold : entries.lookup name with
        | none => exact wellFormed_empty
        | some old => exact hinner name old hold
      · exact hinner n e hfound

theorem lookup_filter_ne (name n : String) (entries : List (String × Entry)) :
    (entries.filter fun entry => entry.1 != name).lookup n =
      if n = name then none else entries.lookup n := by
  have hn (m : String) : (n == m) = decide (n = m) := rfl
  induction entries with
  | nil => simp
  | cons entry entries ih =>
    obtain ⟨m, e⟩ := entry
    rw [List.lookup_cons, hn]
    by_cases hm : m = name
    · subst hm
      rw [List.filter_cons_of_neg (by simp), ih]
      by_cases h : n = m <;> simp [h]
    · rw [List.filter_cons_of_pos (by simpa using hm), List.lookup_cons, hn, ih]
      by_cases h : n = m
      · subst h
        simp [hm]
      · simp [h]

theorem lookup_map_at (name n : String) (f : Entry → Entry) (entries : List (String × Entry)) :
    (entries.map fun entry => if entry.1 = name then (name, f entry.2) else entry).lookup n =
      if n = name then (entries.lookup n).map f else entries.lookup n := by
  have hn (m : String) : (n == m) = decide (n = m) := rfl
  induction entries with
  | nil => simp
  | cons entry entries ih =>
    obtain ⟨m, e⟩ := entry
    rw [List.map_cons, List.lookup_cons, hn]
    by_cases hm : m = name
    · subst hm
      rw [if_pos rfl, List.lookup_cons, hn, ih]
      by_cases h : n = m <;> simp [h]
    · rw [if_neg hm, List.lookup_cons, hn, ih]
      by_cases h : n = m
      · subst h
        simp [hm]
      · simp [h]

theorem map_fst_map_at (name : String) (f : Entry → Entry) (entries : List (String × Entry)) :
    (entries.map fun entry => if entry.1 = name then (name, f entry.2) else entry).map Prod.fst =
      entries.map Prod.fst := by
  rw [List.map_map]
  refine List.map_congr_left fun entry _ => ?_
  by_cases h : entry.1 = name <;> simp [h]

/-- **What is removed from a well-formed tree leaves it well-formed.** -/
theorem WellFormed.eraseAt (h : e.WellFormed) (place : List String) : (eraseAt place e).WellFormed := by
  induction place generalizing e with
  | nil => exact h
  | cons name names ih =>
    cases e with
    | file contents modified => cases names <;> exact h
    | dir entries =>
      obtain ⟨hlisting, hinner⟩ := wellFormed_dir_iff.1 h
      cases names with
      | nil =>
        have hkeys := (List.filter_sublist (p := fun entry => entry.1 != name) (l := entries)).map Prod.fst
        refine wellFormed_dir_iff.2 ⟨⟨hlisting.nodup.sublist hkeys, fun n hn =>
          hlisting.isName n (hkeys.subset hn)⟩, fun n e hfound => ?_⟩
        rw [lookup_filter_ne] at hfound
        split at hfound
        · cases hfound
        · exact hinner n e hfound
      | cons next names =>
        have hkeys := map_fst_map_at name (Entry.eraseAt (next :: names)) entries
        refine wellFormed_dir_iff.2 ⟨⟨hkeys ▸ hlisting.nodup, hkeys ▸ hlisting.isName⟩, fun n e hfound => ?_⟩
        rw [lookup_map_at] at hfound
        split at hfound
        · obtain ⟨old, hold, rfl⟩ := Option.map_eq_some_iff.1 hfound
          exact ih (hinner n old hold)
        · exact hinner n e hfound

end Entry

namespace Disk

variable {disk disk' : Disk} {p : Path} {place : List String}

/-- Every directory lists names, and each of them once; the working directory has a place. -/
structure WellFormed (disk : Disk) : Prop where
  tree : disk.tree.WellFormed
  cwd : ∀ name ∈ disk.cwd, IsName name

theorem wellFormed_empty : empty.WellFormed := ⟨Entry.wellFormed_empty, fun _ h => absurd h List.not_mem_nil⟩

namespace WellFormed

theorem placeOf (h : disk.WellFormed) (p : Path) : ∀ name ∈ disk.placeOf p, IsName name := by
  refine forall_isName_foldl ?_ fun segment => Path.no_slash_of_mem_segments
  unfold origin
  split
  · exact fun _ h => absurd h List.not_mem_nil
  · exact h.cwd

theorem put (h : disk.WellFormed) (p : Path) (contents : ByteArray) (modified : Nat) :
    (disk.put p contents modified).WellFormed :=
  ⟨h.tree.setAt (Entry.wellFormed_file _ _) (h.placeOf p), h.cwd⟩

theorem makeDir (h : disk.WellFormed) (p : Path) : (disk.makeDir p).WellFormed := by
  unfold Disk.makeDir
  split
  · exact h
  · exact ⟨h.tree.setAt Entry.wellFormed_empty (h.placeOf p), h.cwd⟩

theorem touch (h : disk.WellFormed) {modified : Nat} (htouch : disk.touch p modified = .ok disk') :
    disk'.WellFormed := by
  obtain ⟨e, -, htouch⟩ := except_bind_eq_ok_iff.1 htouch
  cases e with
  | dir entries =>
    cases htouch
    exact h
  | file contents old =>
    obtain ⟨place, hplace, htouch⟩ := except_bind_eq_ok_iff.1 htouch
    cases htouch
    obtain ⟨-, -, rfl⟩ := locate_eq_ok_iff.1 hplace
    exact ⟨h.tree.setAt (Entry.wellFormed_file _ _) (h.placeOf p), h.cwd⟩

theorem remove (h : disk.WellFormed) (hremove : disk.remove p = .ok disk') : disk'.WellFormed := by
  obtain ⟨e, -, hremove⟩ := except_bind_eq_ok_iff.1 hremove
  obtain ⟨place, -, hremove⟩ := except_bind_eq_ok_iff.1 hremove
  cases hremove
  exact ⟨h.tree.eraseAt place, h.cwd⟩

end WellFormed

end Disk

/-! ## The path of a directory entry -/

namespace Path

/-- A name that is joined to a path is its last segment. -/
theorem segments_join {p : Path} {name : String} (htext : p.text ≠ "") (hname : '/' ∉ name.toList) :
    ∃ way, (p.join name).segments = way ++ [name] ∧ (p.segments = way ∨ p.segments = way ++ [""]) := by
  have hpieces (cs : List Char) :
      piecesBetween '/' (cs ++ '/' :: name.toList) = piecesBetween '/' cs ++ [name.toList] := by
    rw [piecesBetween_append_cons, piecesBetween_of_notMem hname]
  unfold join
  cases hlast : p.text.toList.getLast? with
  | none => exact absurd (String.toList_eq_nil_iff.1 (List.getLast?_eq_none_iff.1 hlast)) htext
  | some c =>
    by_cases hc : c = '/'
    · subst hc
      obtain ⟨cs, hcs⟩ := List.getLast?_eq_some_iff.1 hlast
      refine ⟨(piecesBetween '/' cs).map String.ofList, ?_, .inr ?_⟩
      · simp [segments, hcs, String.toList_append, hpieces]
      · simp [segments, hcs, piecesBetween_append_cons, piecesBetween]
    · refine ⟨p.segments, ?_, .inl rfl⟩
      simp [segments, hc, String.toList_append, hpieces]

theorem join_text {p : Path} (name : String) (htext : p.text ≠ "") :
    ∃ suffix, (p.join name).text = p.text ++ suffix := by
  unfold join
  split
  · next hnone => exact absurd (String.toList_eq_nil_iff.1 (List.getLast?_eq_none_iff.1 hnone)) htext
  · split
    · exact ⟨name, rfl⟩
    · exact ⟨"/" ++ name, String.append_assoc ..⟩

theorem isAbsolute_join {p : Path} (name : String) (htext : p.text ≠ "") :
    (p.join name).isAbsolute = p.isAbsolute := by
  obtain ⟨suffix, hsuffix⟩ := join_text name htext
  unfold isAbsolute
  rw [hsuffix, String.toList_append]
  cases hcs : p.text.toList with
  | nil => exact absurd (String.toList_eq_nil_iff.1 hcs) htext
  | cons c cs => rfl

end Path

namespace Disk

variable {disk : Disk} {p : Path} {place : List String}

/-- **The path of a directory entry leads to it.** -/
theorem locate_join {name : String} (hplace : disk.locate p = .ok place) (hdir : disk.IsDir place)
    (hname : IsName name) : disk.locate (p.join name) = .ok (place ++ [name]) := by
  obtain ⟨htext, hway, rfl⟩ := locate_eq_ok_iff.1 hplace
  obtain ⟨way, hjoin, hsegments⟩ := Path.segments_join htext hname.no_slash
  have horigin : disk.origin (p.join name) = disk.origin p := by
    rw [origin, origin, Path.isAbsolute_join name htext]
  have hparent : way.foldl step (disk.origin p) = disk.placeOf p := by
    unfold placeOf
    obtain hsegments | hsegments := hsegments
    · rw [hsegments]
    · rw [hsegments, List.foldl_append]
      rfl
  refine locate_eq_ok_iff.2 ⟨?_, fun n hn => ?_, ?_⟩
  · obtain ⟨suffix, hsuffix⟩ := Path.join_text name htext
    rw [hsuffix]
    exact fun h => htext (String.append_eq_empty_iff.1 h).1
  · rw [hjoin, List.length_append, List.length_singleton] at hn
    rw [hjoin, horigin, List.take_append_of_le_length (Nat.le_of_lt_succ hn)]
    obtain hn | rfl := Nat.lt_or_eq_of_le (Nat.le_of_lt_succ hn)
    · have hsame : p.segments.take n = way.take n := by
        obtain hsegments | hsegments := hsegments
        · rw [hsegments]
        · rw [hsegments, List.take_append_of_le_length (Nat.le_of_lt hn)]
      rw [← hsame]
      refine hway n (Nat.lt_of_lt_of_le hn ?_)
      obtain hsegments | hsegments := hsegments <;> simp [hsegments]
    · rw [List.take_length, hparent]
      exact hdir
  · have hjoined : disk.placeOf (p.join name) = (way ++ [name]).foldl step (disk.origin p) := by
      rw [placeOf, hjoin, horigin]
    rw [hjoined, List.foldl_append, hparent, List.foldl_cons, List.foldl_nil, step_of_isName hname]

end Disk

end TypeForge
