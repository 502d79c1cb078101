import TypeForge.Proofs.Build.Search
import TypeForge.Proofs.Disk.Components

/-!
# A search finds exactly the sources

The sources below a directory are the files whose names have the extension of sources and that are
reached through directories that are searched.  A search lists all of them and nothing else, each
once and in the order of paths, so the order in which directories list their entries makes no
difference.
-/

namespace TypeForge

variable {entries : List (String × Entry)} {base p : Path}

/-! ## What is found among directory entries -/

namespace Entry

theorem get?_dir_cons (name : String) (e : Entry) (entries : List (String × Entry)) (first : String)
    (names : List String) :
    (dir ((name, e) :: entries)).get? (first :: names) =
      if first = name then e.get? names else (dir entries).get? (first :: names) := by
  have hfirst : (first == name) = decide (first = name) := rfl
  rw [get?_dir, get?_dir, List.lookup_cons, hfirst]
  by_cases h : first = name <;> simp [h]

theorem WellFormed.of_cons {name : String} {e : Entry} (h : (dir ((name, e) :: entries)).WellFormed) :
    e.WellFormed ∧ (dir entries).WellFormed ∧ name ∉ entries.map Prod.fst := by
  obtain ⟨hlisting, hinner⟩ := wellFormed_dir_iff.1 h
  have hnodup : name ∉ entries.map Prod.fst ∧ (entries.map Prod.fst).Nodup := List.nodup_cons.1 hlisting.nodup
  have hlisting' : Listing entries :=
    ⟨hnodup.2, fun n hn => hlisting.isName n (List.mem_cons_of_mem _ hn)⟩
  refine ⟨hinner name e (hlisting.lookup_of_mem List.mem_cons_self), ?_, hnodup.1⟩
  refine wellFormed_dir_iff.2 ⟨hlisting', fun n found hfound => hinner n found ?_⟩
  refine hlisting.lookup_of_mem (List.mem_cons_of_mem _ ?_)
  obtain ⟨before, after, rfl, -⟩ := List.lookup_eq_some_iff.1 hfound
  exact List.mem_append_right _ List.mem_cons_self

/-- The first of the names that lead somewhere is listed. -/
theorem mem_of_get?_eq_some {first : String} {names : List String} {e : Entry}
    (h : (dir entries).get? (first :: names) = some e) : first ∈ entries.map Prod.fst := by
  rw [get?_dir] at h
  obtain ⟨found, hfound, -⟩ := Option.bind_eq_some_iff.1 h
  obtain ⟨before, after, rfl, -⟩ := List.lookup_eq_some_iff.1 hfound
  simp

/-- The names lead to a file through directories that are searched. -/
def Reaches (entries : List (String × Entry)) (dirs : List String) (name : String) : Prop :=
  (∃ contents modified, (dir entries).get? (dirs ++ [name]) = some (file contents modified)) ∧
    ∀ d ∈ dirs, isSkipped d = false

/-- Names that lead on in a shorter listing lead to the same in a longer one. -/
theorem get?_cons_of_notMem {name first : String} {names : List String} {e found : Entry}
    (hname : name ∉ entries.map Prod.fst) (h : (dir entries).get? (first :: names) = some found) :
    (dir ((name, e) :: entries)).get? (first :: names) = some found := by
  have hne : first ≠ name := by
    rintro rfl
    exact hname (mem_of_get?_eq_some h)
  rw [get?_dir_cons, if_neg hne, h]

theorem Reaches.cons {name last : String} {e : Entry} {dirs : List String} (hname : name ∉ entries.map Prod.fst)
    (h : Reaches entries dirs last) : Reaches ((name, e) :: entries) dirs last := by
  obtain ⟨⟨contents, modified, hget⟩, hdirs⟩ := h
  refine ⟨⟨contents, modified, ?_⟩, hdirs⟩
  cases dirs with
  | nil => exact get?_cons_of_notMem hname hget
  | cons d dirs => exact get?_cons_of_notMem hname hget

/-- A file is reached by its name only. -/
theorem reaches_file_cons {name last : String} {contents : ByteArray} {modified : Nat} {dirs : List String}
    (h : Reaches ((name, file contents modified) :: entries) dirs last) :
    (dirs = [] ∧ last = name) ∨ Reaches entries dirs last := by
  obtain ⟨⟨contents', modified', hget⟩, hdirs⟩ := h
  cases dirs with
  | nil =>
    rw [List.nil_append, get?_dir_cons] at hget
    split at hget
    · next hlast => exact .inl ⟨rfl, hlast⟩
    · exact .inr ⟨⟨contents', modified', hget⟩, hdirs⟩
  | cons d dirs =>
    rw [List.cons_append, get?_dir_cons] at hget
    split at hget
    · cases dirs <;> cases hget
    · exact .inr ⟨⟨contents', modified', hget⟩, hdirs⟩

/-- A directory is passed on the way to what it holds. -/
theorem reaches_dir_cons {name last : String} {inner : List (String × Entry)} {dirs : List String}
    (h : Reaches ((name, dir inner) :: entries) dirs last) :
    (∃ more, dirs = name :: more ∧ isSkipped name = false ∧ Reaches inner more last) ∨
      Reaches entries dirs last := by
  obtain ⟨⟨contents, modified, hget⟩, hdirs⟩ := h
  cases dirs with
  | nil =>
    rw [List.nil_append, get?_dir_cons] at hget
    split at hget
    · cases hget
    · exact .inr ⟨⟨contents, modified, hget⟩, hdirs⟩
  | cons d dirs =>
    rw [List.cons_append, get?_dir_cons] at hget
    split at hget
    · next hd =>
      subst hd
      exact .inl ⟨dirs, rfl, hdirs d List.mem_cons_self, ⟨contents, modified, hget⟩,
        fun d' hd' => hdirs d' (List.mem_cons_of_mem _ hd')⟩
    · exact .inr ⟨⟨contents, modified, hget⟩, hdirs⟩

end Entry

open Entry (Reaches)

/-- **What is found among directory entries**: the sources that names lead to. -/
theorem mem_sourcesBelow_iff (h : (Entry.dir entries).WellFormed) :
    p ∈ sourcesBelow base entries ↔
      ∃ dirs name, Reaches entries dirs name ∧ p = base.joined (dirs ++ [name]) ∧ p.isSource = true := by
  fun_induction sourcesBelow base entries with
  | case1 base =>
    refine ⟨fun hp => absurd hp List.not_mem_nil, ?_⟩
    rintro ⟨dirs, name, ⟨⟨contents, modified, hget⟩, -⟩, -⟩
    cases dirs <;> cases hget
  | case2 base name contents modified entries ih =>
    obtain ⟨-, hentries, hname⟩ := h.of_cons
    rw [List.mem_append, ih hentries]
    constructor
    · rintro (hp | ⟨dirs, last, hreaches, hp⟩)
      · split at hp
        · next hsource =>
          rw [List.mem_singleton.1 hp]
          refine ⟨[], name, ⟨⟨contents, modified, ?_⟩, fun _ hd => absurd hd List.not_mem_nil⟩, rfl, hsource⟩
          rw [List.nil_append, Entry.get?_dir_cons, if_pos rfl, Entry.get?_nil]
        · exact absurd hp List.not_mem_nil
      · exact ⟨dirs, last, hreaches.cons hname, hp⟩
    · rintro ⟨dirs, last, hreaches, rfl, hsource⟩
      obtain ⟨rfl, rfl⟩ | hreaches := Entry.reaches_file_cons hreaches
      · refine .inl ?_
        rw [List.nil_append, Path.joined_cons, Path.joined_nil] at hsource ⊢
        rw [if_pos hsource]
        exact List.mem_singleton_self _
      · exact .inr ⟨dirs, last, hreaches, rfl, hsource⟩
  | case3 base name inner entries ihinner ih =>
    obtain ⟨hinner, hentries, hname⟩ := h.of_cons
    rw [List.mem_append, ih hentries]
    constructor
    · rintro (hp | ⟨dirs, last, hreaches, hp⟩)
      · split at hp
        · exact absurd hp List.not_mem_nil
        · next hskipped =>
          obtain ⟨dirs, last, ⟨⟨contents, modified, hget⟩, hdirs⟩, hp, hsource⟩ := (ihinner hinner).1 hp
          refine ⟨name :: dirs, last, ⟨⟨contents, modified, ?_⟩, ?_⟩, hp, hsource⟩
          · rw [List.cons_append, Entry.get?_dir_cons, if_pos rfl, hget]
          · exact List.forall_mem_cons.2 ⟨eq_false_of_ne_true hskipped, hdirs⟩
      · exact ⟨dirs, last, hreaches.cons hname, hp⟩
    · rintro ⟨dirs, last, hreaches, rfl, hsource⟩
      obtain ⟨more, rfl, hskipped, hreaches⟩ | hreaches := Entry.reaches_dir_cons hreaches
      · refine .inl ?_
        rw [if_neg (ne_true_of_eq_false hskipped)]
        exact (ihinner hinner).2 ⟨more, last, hreaches, rfl, hsource⟩
      · exact .inr ⟨dirs, last, hreaches, rfl, hsource⟩

/-! ## What is found at a directory -/

theorem isSkipped_eq_false_iff {name : String} :
    isSkipped name = false ↔ name ≠ "node_modules" ∧ name ≠ "target" ∧ name.toList.head? ≠ some '.' := by
  simp only [isSkipped, Bool.or_eq_false_iff, beq_eq_false_iff_ne]
  exact ⟨fun ⟨⟨hdot, hmodules⟩, htarget⟩ => ⟨hmodules, htarget, hdot⟩,
    fun ⟨hmodules, htarget, hdot⟩ => ⟨⟨hdot, hmodules⟩, htarget⟩⟩

/-- A path that ends in a name is a source if that name has the extension of sources. -/
theorem Path.isSource_joined_iff {dirs : List String} {name : String} (htext : base.text ≠ "")
    (hnames : ∀ n ∈ dirs ++ [name], IsName n) :
    (base.joined (dirs ++ [name])).isSource = true ↔ ∃ stem, stem ≠ "" ∧ name = stem ++ ".tartak" := by
  have hlast : (base.joined (dirs ++ [name])).fileName? = some name := by
    rw [fileName?, components_joined htext hnames]
    simp
  have hdot : '.' ∉ sourceExtension.toList := by decide
  rw [isSource, extension?, hlast, Option.bind_some, beq_iff_eq, extensionOf?_eq_some_iff]
  have htartak (stem : String) : stem ++ "." ++ sourceExtension = stem ++ ".tartak" := String.append_assoc ..
  simp only [hdot, not_false_eq_true, true_and, htartak]

/-- What leads somewhere in a well-formed tree are names. -/
theorem Entry.WellFormed.isName_of_get? {e found : Entry} {way : List String} (h : e.WellFormed)
    (hget : e.get? way = some found) : ∀ name ∈ way, IsName name := by
  induction way generalizing e with
  | nil => exact fun _ hname => absurd hname List.not_mem_nil
  | cons first names ih =>
    cases e with
    | file contents modified => cases hget
    | dir entries =>
      obtain ⟨hlisting, hinner⟩ := wellFormed_dir_iff.1 h
      have hfirst := hlisting.isName first (mem_of_get?_eq_some hget)
      rw [get?_dir] at hget
      obtain ⟨next, hnext, hget⟩ := Option.bind_eq_some_iff.1 hget
      exact List.forall_mem_cons.2 ⟨hfirst, ih (hinner first next hnext) hget⟩

namespace Disk

variable {disk disk' : Disk} {root : Path} {place : List String} {found : List Path}

/-- The path `p` is that of a source below the directory at `place`, which the path `root` leads to:
of a file whose name has the extension of sources, and that is reached through directories none of
which is hidden or holds foreign or generated files. -/
def SourceBelow (disk : Disk) (root : Path) (place : List String) (p : Path) : Prop :=
  ∃ dirs name, p = root.joined (dirs ++ [name]) ∧
    (∃ file, disk.look (place ++ (dirs ++ [name])) = some (some file)) ∧
    (∃ stem, stem ≠ "" ∧ name = stem ++ ".tartak") ∧
    ∀ d ∈ dirs, d ≠ "node_modules" ∧ d ≠ "target" ∧ d.toList.head? ≠ some '.'

theorem Same.isDir_iff (h : disk.Same disk') (place : List String) : disk'.IsDir place ↔ disk.IsDir place := by
  rw [IsDir, IsDir, h.look_eq]

theorem Same.locate_eq_ok (h : disk.Same disk') (hroot : disk.locate root = .ok place) :
    disk'.locate root = .ok place := by
  have horigin : disk'.origin root = disk.origin root := by rw [origin, origin, h.cwd_eq]
  obtain ⟨htext, hway, rfl⟩ := locate_eq_ok_iff.1 hroot
  refine locate_eq_ok_iff.2 ⟨htext, fun n hn => ?_, by rw [placeOf, placeOf, horigin]⟩
  rw [h.isDir_iff, horigin]
  exact hway n hn

theorem Same.sourceBelow_iff (h : disk.Same disk') : disk'.SourceBelow root place p ↔ disk.SourceBelow root place p := by
  simp only [SourceBelow, h.look_eq]

theorem text_ne_empty_of_locate (hroot : disk.locate root = .ok place) : root.text ≠ "" :=
  (locate_eq_ok_iff.1 hroot).1

/-- What names lead to from a directory. -/
theorem look_append (hdir : disk.tree.get? place = some (.dir entries)) (way : List String) {file : ByteArray × Nat} :
    disk.look (place ++ way) = some (some file) ↔ (Entry.dir entries).get? way = some (.file file.1 file.2) := by
  rw [look_eq_file_iff, Entry.get?_append, hdir, Option.bind_some]

/-- **What is found at a directory**, in whatever order. -/
theorem mem_sourcesBelow_iff_sourceBelow (hdisk : disk.WellFormed) (hroot : disk.locate root = .ok place)
    (hdir : disk.tree.get? place = some (.dir entries)) :
    p ∈ sourcesBelow root entries ↔ disk.SourceBelow root place p := by
  have hentries : (Entry.dir entries).WellFormed := by
    intro way inner hinner
    refine hdisk.tree (place ++ way) inner ?_
    rw [Entry.get?_append, hdir]
    exact hinner
  rw [mem_sourcesBelow_iff hentries]
  refine exists_congr fun dirs => exists_congr fun name => ?_
  simp only [Reaches, isSkipped_eq_false_iff, look_append hdir]
  constructor
  · rintro ⟨⟨⟨contents, modified, hget⟩, hdirs⟩, rfl, hsource⟩
    have hnames := hentries.isName_of_get? hget
    exact ⟨rfl, ⟨(contents, modified), hget⟩,
      (Path.isSource_joined_iff (text_ne_empty_of_locate hroot) hnames).1 hsource, hdirs⟩
  · rintro ⟨rfl, ⟨⟨contents, modified⟩, hget⟩, hstem, hdirs⟩
    have hnames := hentries.isName_of_get? hget
    exact ⟨⟨⟨contents, modified, hget⟩, hdirs⟩, rfl,
      (Path.isSource_joined_iff (text_ne_empty_of_locate hroot) hnames).2 hstem⟩

/-- Sources below one directory that have the same components are the same. -/
theorem SourceBelow.eq_of_components {q : Path} (hdisk : disk.WellFormed) (hroot : disk.locate root = .ok place)
    (hp : disk.SourceBelow root place p) (hq : disk.SourceBelow root place q)
    (h : p.components = q.components) : p = q := by
  have hnames {way : List String} {file : ByteArray × Nat} (hlook : disk.look (place ++ way) = some (some file)) :
      ∀ name ∈ way, IsName name := by
    rw [look_eq_file_iff] at hlook
    exact fun name hname => hdisk.tree.isName_of_get? hlook name (List.mem_append_right _ hname)
  obtain ⟨dirs, name, rfl, ⟨file, hlook⟩, -⟩ := hp
  obtain ⟨dirs', name', rfl, ⟨file', hlook'⟩, -⟩ := hq
  have htext := text_ne_empty_of_locate hroot
  rw [Path.components_joined htext (hnames hlook), Path.components_joined htext (hnames hlook'),
    List.append_cancel_left_eq] at h
  rw [List.map_injective_iff.2 (fun _ _ => Path.Component.name.inj) h]

/-- **The order of what a search finds.** -/
theorem pairwise_sources (hdisk : disk.WellFormed) (hroot : disk.locate root = .ok place)
    (hdir : disk.tree.get? place = some (.dir entries)) :
    (sortPaths (sourcesBelow root entries)).Pairwise fun p q => p.compare q = .lt := by
  have hmem (p : Path) (hp : p ∈ sortPaths (sourcesBelow root entries)) : disk.SourceBelow root place p :=
    (mem_sourcesBelow_iff_sourceBelow hdisk hroot hdir).1 ((perm_sortPaths _).mem_iff.1 hp)
  have hsorted := List.pairwise_mergeSort Path.compare_trans Path.compare_total (sourcesBelow root entries)
  have hnodup : (sortPaths (sourcesBelow root entries)).Nodup := (perm_sortPaths _).nodup_iff.2
    (nodup_sourcesBelow hdisk hroot hdir (List.Subset.refl _) (hdisk.tree _ _ hdir).nodup)
  refine (hsorted.and hnodup).imp_of_mem fun {p q} hp hq hpq => ?_
  refine Path.compare_eq_lt hpq.1 fun hcomponents => hpq.2 ?_
  exact (hmem p hp).eq_of_components hdisk hroot (hmem q hq) hcomponents

/-- A search at a directory finds something, if only the empty list. -/
theorem sources_of_isDir (hroot : disk.locate root = .ok place)
    (hdir : disk.tree.get? place = some (.dir entries)) :
    disk.sources root = .ok (sortPaths (sourcesBelow root entries)) := by
  have hfile : disk.isFile root = false := by
    rw [isFile, entry_eq_ok_iff.2 ⟨place, hroot, hdir⟩]
  exact sources_eq_ok_iff.2 (.inr ⟨hfile, place, entries, hroot, hdir, rfl⟩)

/-- **A search finds exactly the sources.**  At a directory it yields the sources below it and
nothing else, in the strict order of paths and so each once; a directory is never one of them.
Every file system with the same at every place gives the same, in whatever order its directories
list their entries. -/
theorem sources_exact (hdisk : disk.WellFormed) (hroot : disk.locate root = .ok place)
    (hdir : disk.IsDir place) :
    ∃ found, disk.sources root = .ok found ∧ (∀ p, p ∈ found ↔ disk.SourceBelow root place p) ∧
      found.Nodup ∧ (found.Pairwise fun p q => p.compare q = .lt) ∧
      (∀ p ∈ found, disk.isFile p = true) ∧
      ∀ disk' : Disk, disk'.WellFormed → disk.Same disk' → disk'.sources root = .ok found := by
  obtain ⟨entries, hentries⟩ := isDir_iff.1 hdir
  have hsources := sources_of_isDir hroot hentries
  have hmem (p : Path) : p ∈ sortPaths (sourcesBelow root entries) ↔ disk.SourceBelow root place p :=
    (perm_sortPaths _).mem_iff.trans (mem_sourcesBelow_iff_sourceBelow hdisk hroot hentries)
  have hsorted := pairwise_sources hdisk hroot hentries
  refine ⟨_, hsources, hmem, nodup_sources hdisk hsources, hsorted, ?_, ?_⟩
  · intro p hp
    obtain ⟨-, name, -, names, contents, modified, hlocate, hget⟩ := exists_of_mem_sourcesBelow hdisk
      hroot hentries (List.Subset.refl _) ((perm_sortPaths _).mem_iff.1 hp)
    exact isFile_iff.2 ⟨contents, modified, entry_eq_ok_iff.2 ⟨_, hlocate, hget⟩⟩
  · -- both lists hold the same paths, and there is only one strictly sorted list of them
    intro disk' hdisk' hsame
    obtain ⟨entries', hentries'⟩ := isDir_iff.1 ((hsame.isDir_iff place).2 hdir)
    have hroot' := hsame.locate_eq_ok hroot
    have hsources' := sources_of_isDir hroot' hentries'
    have hperm := (List.perm_ext_iff_of_nodup (nodup_sources hdisk' hsources') (nodup_sources hdisk hsources)).2
      fun p => ((perm_sortPaths _).mem_iff.trans (mem_sourcesBelow_iff_sourceBelow hdisk' hroot' hentries')).trans
        (hsame.sourceBelow_iff.trans (hmem p).symm)
    rw [hsources', hperm.eq_of_pairwise (fun p q _ _ hpq hqp => absurd hqp (Path.compare_asymm hpq))
      (pairwise_sources hdisk' hroot' hentries') hsorted]

/-- A directory `a` and files whose names extend its name, a directory that is named like a source, a
directory that is not searched, and a file without a name in front of its extension. -/
def scattered : Disk :=
  (((((empty.put ⟨"a.tartak"⟩ ⟨#[]⟩ 1).put ⟨"a b.tartak"⟩ ⟨#[]⟩ 1).put ⟨"a/b.tartak"⟩ ⟨#[]⟩ 1).put
    ⟨"d.tartak/e.tartak"⟩ ⟨#[]⟩ 1).put ⟨"target/f.tartak"⟩ ⟨#[]⟩ 1).put ⟨".tartak"⟩ ⟨#[]⟩ 1

theorem sources_scattered :
    scattered.WellFormed ∧ scattered.locate ⟨"."⟩ = .ok [] ∧ scattered.IsDir [] ∧
      scattered.sources ⟨"."⟩ =
        .ok [⟨"./a/b.tartak"⟩, ⟨"./a b.tartak"⟩, ⟨"./a.tartak"⟩, ⟨"./d.tartak/e.tartak"⟩] ∧
      scattered.SourceBelow ⟨"."⟩ [] ⟨"./d.tartak/e.tartak"⟩ := by
  have hdisk : scattered.WellFormed :=
    (((((wellFormed_empty.put _ _ _).put _ _ _).put _ _ _).put _ _ _).put _ _ _).put _ _ _
  have hroot : scattered.locate ⟨"."⟩ = .ok [] := by decide +kernel
  have hentries : scattered.tree.get? [] = some (.dir
      [("a.tartak", .file ⟨#[]⟩ 1), ("a b.tartak", .file ⟨#[]⟩ 1), ("a", .dir [("b.tartak", .file ⟨#[]⟩ 1)]),
        ("d.tartak", .dir [("e.tartak", .file ⟨#[]⟩ 1)]), ("target", .dir [("f.tartak", .file ⟨#[]⟩ 1)]),
        (".tartak", .file ⟨#[]⟩ 1)]) := rfl
  have hdir : scattered.IsDir [] := isDir_iff.2 ⟨_, hentries⟩
  obtain ⟨found, hfound, hmem, -, hsorted, -⟩ := sources_exact hdisk hroot hdir
  -- what is found in the order of the listing, and then in the only order that is sorted
  have hperm : found.Perm
      [⟨"./a.tartak"⟩, ⟨"./a b.tartak"⟩, ⟨"./a/b.tartak"⟩, ⟨"./d.tartak/e.tartak"⟩] := by
    rw [sources_of_isDir hroot hentries, Except.ok.injEq] at hfound
    rw [← hfound]
    refine (perm_sortPaths _).trans ?_
    simp only [sourcesBelow_file, sourcesBelow_dir, sourcesBelow_nil]
    decide +kernel
  have hlist : found = [⟨"./a/b.tartak"⟩, ⟨"./a b.tartak"⟩, ⟨"./a.tartak"⟩, ⟨"./d.tartak/e.tartak"⟩] :=
    (hperm.trans (by decide)).eq_of_pairwise (fun p q _ _ hpq hqp => absurd hqp (Path.compare_asymm hpq))
      hsorted (by decide +kernel)
  subst hlist
  exact ⟨hdisk, hroot, hdir, hfound, (hmem _).1 (by decide)⟩

end Disk

end TypeForge
