import TypeForge.Build.Sources
import TypeForge.Proofs.Disk.Listings

/-!
# What a search finds

A search goes through the entries of a directory and of those below it, and names what it finds by
joining names to the path it started from.  In a well-formed file system such a path leads to the
entry it was made for.  So a search finds files only, and each of them once.
-/

namespace TypeForge

namespace Entry

theorem get?_append (e : Entry) (way rest : List String) :
    e.get? (way ++ rest) = (e.get? way).bind (get? rest) := by
  induction way generalizing e with
  | nil => simp
  | cons name names ih =>
    cases e with
    | file contents modified => rfl
    | dir entries =>
      rw [List.cons_append, get?_dir, get?_dir]
      cases entries.lookup name with
      | none => rfl
      | some inner => exact ih inner

theorem Listing.lookup_of_mem {entries : List (String × Entry)} {name : String} {e : Entry}
    (h : Listing entries) (hmem : (name, e) ∈ entries) : entries.lookup name = some e := by
  obtain ⟨before, after, rfl⟩ := List.append_of_mem hmem
  refine List.lookup_eq_some_iff.2 ⟨before, after, rfl, fun entry hentry => ?_⟩
  have hnodup := h.nodup
  rw [List.map_append, List.map_cons, List.nodup_append] at hnodup
  have hne := hnodup.2.2 entry.1 (List.mem_map_of_mem hentry) name List.mem_cons_self
  simpa using Ne.symm hne

end Entry

section

variable (base : Path) (name : String) (entries : List (String × Entry))

theorem sourcesBelow_nil : sourcesBelow base [] = [] := by
  rw [sourcesBelow.eq_def]

theorem sourcesBelow_file (contents : ByteArray) (modified : Nat) :
    sourcesBelow base ((name, .file contents modified) :: entries) =
      (if (base.join name).isSource then [base.join name] else []) ++ sourcesBelow base entries := by
  rw [sourcesBelow.eq_def]

theorem sourcesBelow_dir (inner : List (String × Entry)) :
    sourcesBelow base ((name, .dir inner) :: entries) =
      (if isSkipped name then [] else sourcesBelow (base.join name) inner) ++ sourcesBelow base entries := by
  rw [sourcesBelow.eq_def]

end

namespace Disk

variable {disk : Disk} {p base root : Path} {place : List String} {all entries : List (String × Entry)}

/-- The path of an entry of a directory leads to that entry. -/
theorem locate_listed (hdisk : disk.WellFormed) (hbase : disk.locate base = .ok place)
    (hall : disk.tree.get? place = some (.dir all)) {name : String} {e : Entry} (hmem : (name, e) ∈ all) :
    disk.locate (base.join name) = .ok (place ++ [name]) ∧
      disk.tree.get? (place ++ [name]) = some e := by
  have hlisting := hdisk.tree place all hall
  have hname := hlisting.isName name (List.mem_map_of_mem hmem)
  refine ⟨locate_join hbase (isDir_iff.2 ⟨all, hall⟩) hname, ?_⟩
  rw [Entry.get?_append, hall, Option.bind_some, Entry.get?_dir, hlisting.lookup_of_mem hmem]
  simp

/-- **What is found is where its path leads to**, at or below one of the entries gone through. -/
theorem exists_of_mem_sourcesBelow (hdisk : disk.WellFormed) (hbase : disk.locate base = .ok place)
    (hall : disk.tree.get? place = some (.dir all)) (hentries : entries ⊆ all)
    (hp : p ∈ sourcesBelow base entries) :
    p.isSource = true ∧ ∃ name ∈ entries.map Prod.fst, ∃ names contents modified,
      disk.locate p = .ok (place ++ name :: names) ∧
        disk.tree.get? (place ++ name :: names) = some (.file contents modified) := by
  fun_induction sourcesBelow base entries generalizing place all with
  | case1 base => exact absurd hp List.not_mem_nil
  | case2 base name contents modified entries ih =>
    obtain ⟨hlocate, hget⟩ := locate_listed hdisk hbase hall (hentries List.mem_cons_self)
    obtain hp | hp := List.mem_append.1 hp
    · split at hp
      · next hsource =>
        rw [List.mem_singleton.1 hp]
        exact ⟨hsource, name, List.mem_cons_self, [], contents, modified, hlocate, hget⟩
      · exact absurd hp List.not_mem_nil
    · obtain ⟨hsource, name', hname', found⟩ := ih hbase hall (fun e he => hentries (List.mem_cons_of_mem _ he)) hp
      exact ⟨hsource, name', List.mem_cons_of_mem _ hname', found⟩
  | case3 base name inner entries ihinner ih =>
    obtain ⟨hlocate, hget⟩ := locate_listed hdisk hbase hall (hentries List.mem_cons_self)
    obtain hp | hp := List.mem_append.1 hp
    · split at hp
      · exact absurd hp List.not_mem_nil
      · next hskipped =>
        obtain ⟨hsource, name', -, names, contents, modified, hlocate', hget'⟩ :=
          ihinner hlocate hget (List.Subset.refl inner) hp
        rw [List.append_assoc] at hlocate' hget'
        exact ⟨hsource, name, List.mem_cons_self, name' :: names, contents, modified, hlocate', hget'⟩
    · obtain ⟨hsource, name', hname', found⟩ := ih hbase hall (fun e he => hentries (List.mem_cons_of_mem _ he)) hp
      exact ⟨hsource, name', List.mem_cons_of_mem _ hname', found⟩

/-- What is found at or below an entry is not found at or below another. -/
theorem disjoint_sourcesBelow (hdisk : disk.WellFormed) (hbase : disk.locate base = .ok place)
    (hall : disk.tree.get? place = some (.dir all)) {entry : String × Entry}
    (hentries : entry :: entries ⊆ all) (hnodup : ((entry :: entries).map Prod.fst).Nodup) :
    (sourcesBelow base [entry]).Disjoint (sourcesBelow base entries) := by
  intro q hq hq'
  obtain ⟨hentry, hrest⟩ := List.cons_subset.1 hentries
  obtain ⟨-, name, hname, names, _, _, hlocate, -⟩ := exists_of_mem_sourcesBelow hdisk hbase hall
    (List.cons_subset.2 ⟨hentry, List.nil_subset _⟩) hq
  obtain ⟨-, name', hname', names', _, _, hlocate', -⟩ :=
    exists_of_mem_sourcesBelow hdisk hbase hall hrest hq'
  -- one path leads to one place, and so through one name
  rw [hlocate, Except.ok.injEq, List.append_cancel_left_eq] at hlocate'
  obtain ⟨rfl, -⟩ := List.cons.inj hlocate'
  rw [List.mem_singleton.1 hname] at hname'
  exact (List.nodup_cons.1 hnodup).1 hname'

/-- What is found at or below different entries has different paths. -/
theorem nodup_sourcesBelow (hdisk : disk.WellFormed) (hbase : disk.locate base = .ok place)
    (hall : disk.tree.get? place = some (.dir all)) (hentries : entries ⊆ all)
    (hnodup : (entries.map Prod.fst).Nodup) : (sourcesBelow base entries).Nodup := by
  fun_induction sourcesBelow base entries generalizing place all with
  | case1 base => exact List.nodup_nil
  | case2 base name contents modified entries ih =>
    have hdisjoint := disjoint_sourcesBelow hdisk hbase hall hentries hnodup
    rw [sourcesBelow_file, sourcesBelow_nil, List.append_nil] at hdisjoint
    have hrest := ih hbase hall (List.cons_subset.1 hentries).2 (List.nodup_cons.1 hnodup).2
    refine List.Nodup.append ?_ hrest hdisjoint
    split <;> simp
  | case3 base name inner entries ihinner ih =>
    have hdisjoint := disjoint_sourcesBelow hdisk hbase hall hentries hnodup
    rw [sourcesBelow_dir, sourcesBelow_nil, List.append_nil] at hdisjoint
    have hrest := ih hbase hall (List.cons_subset.1 hentries).2 (List.nodup_cons.1 hnodup).2
    refine List.Nodup.append ?_ hrest hdisjoint
    split
    · exact List.nodup_nil
    · obtain ⟨hlocate, hget⟩ := locate_listed hdisk hbase hall (hentries List.mem_cons_self)
      exact ihinner hlocate hget (List.Subset.refl inner) (hdisk.tree _ _ hget).nodup

/-! ## The sources at a path -/

theorem perm_sortPaths (paths : List Path) : (sortPaths paths).Perm paths := List.mergeSort_perm ..

/-- A search succeeds at a file, which is a source or not, and at a directory. -/
theorem sources_eq_ok_iff {found : List Path} :
    disk.sources root = .ok found ↔
      (disk.isFile root = true ∧ found = if root.isSource then [root] else []) ∨
      (disk.isFile root = false ∧ ∃ place entries, disk.locate root = .ok place ∧
        disk.tree.get? place = some (.dir entries) ∧ found = sortPaths (sourcesBelow root entries)) := by
  unfold sources
  cases disk.isFile root with
  | true =>
    rw [if_pos rfl]
    constructor
    · intro h
      cases h
      exact .inl ⟨rfl, rfl⟩
    · rintro (⟨-, rfl⟩ | ⟨h, -⟩)
      · rfl
      · cases h
  | false =>
    simp only [Bool.false_eq_true, if_false, false_and, false_or, true_and]
    rw [except_bind_eq_ok_iff]
    simp only [entries, except_bind_eq_ok_iff, entriesAt_eq_ok_iff]
    constructor
    · rintro ⟨listed, ⟨place, hplace, hlisted⟩, hfound⟩
      cases hfound
      exact ⟨place, listed, hplace, hlisted, rfl⟩
    · rintro ⟨place, listed, hplace, hlisted, rfl⟩
      exact ⟨listed, ⟨place, hplace, hlisted⟩, rfl⟩

theorem isFile_iff : disk.isFile root = true ↔ ∃ contents modified,
    disk.entry root = .ok (.file contents modified) := by
  unfold isFile
  split
  · next contents modified h => simp [h]
  · next hno => simpa using fun contents modified h => hno contents modified h

/-- **No source is found twice.** -/
theorem nodup_sources (hdisk : disk.WellFormed) {found : List Path} (h : disk.sources root = .ok found) :
    found.Nodup := by
  obtain ⟨-, rfl⟩ | ⟨-, place, entries, hplace, hdir, rfl⟩ := sources_eq_ok_iff.1 h
  · split <;> simp
  · exact (perm_sortPaths _).nodup_iff.2 (nodup_sourcesBelow hdisk hplace hdir (List.Subset.refl _)
      (hdisk.tree _ _ hdir).nodup)

end Disk

end TypeForge
