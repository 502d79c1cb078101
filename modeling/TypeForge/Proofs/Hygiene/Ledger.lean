import Mathlib.Data.List.Nodup
import TypeForge.Proofs.Hygiene.Temps

/-!
# A ledger of fresh ids

While code is generated, an id that was handed out is in one of three places: it is held for a
binder or a declaration to come, it is the number of a lifted function, or it is bound in code
that was made already.  Such code is either pending, to be built into larger code, or the body of
a lifted function.  The ledger of a state says that each id is in exactly one of these places,
and that the code made so far binds and mentions ids properly.

Every construct moves ids and code around in the ledger.  What it does to its own part does not
depend on the rest, so that computations can be put one behind the other.
-/

namespace TypeForge

open TypeScript

/-- The id of a lifted function. -/
def TypeScript.Name.liftedId? : Name → Option Nat
  | lambda id | arm id => some id
  | _ => none

namespace GenState

/-- The ids of the lifted functions. -/
def liftedIds (s : GenState) : List Nat := s.lifted.filterMap fun f => f.name.liftedId?

/-- An occurrence in pending code or in a lifted function. -/
def Occurs (s : GenState) (codes : List Ty) (x : Temp) : Prop :=
  (∃ t ∈ codes, x ∈ t.temps []) ∨ ∃ f ∈ s.lifted, x ∈ f.body.temps []

/-- An id is bound, in a pattern `pattern` against which `check` is checked. -/
def Bound (s : GenState) (codes : List Ty) (id : Nat) (check pattern : Ty) : Prop :=
  ∃ around, s.Occurs codes (.binder id check pattern around)

/-- The ids `held` wait for a use, and the code `codes` is pending. -/
structure Ledger (s : GenState) (held : List Nat) (codes : List Ty) : Prop where
  positive : 1 ≤ s.nextId
  hidden : ∀ t ∈ codes, t.Hidden
  distinct : (held ++ s.liftedIds).Nodup
  /-- Ids that are held or declared were handed out. -/
  issued : ∀ id ∈ held ++ s.liftedIds, 1 ≤ id ∧ id < s.nextId
  proper : ∀ x, s.Occurs codes x → x.Proper
  /-- Ids that occur were handed out for nothing else. -/
  reserved : ∀ x, s.Occurs codes x → 1 ≤ x.id ∧ x.id < s.nextId ∧ x.id ∉ held ++ s.liftedIds
  /-- No id is lost. -/
  complete : ∀ id, 1 ≤ id → id < s.nextId →
    id ∈ held ++ s.liftedIds ∨ ∃ check pattern, s.Bound codes id check pattern
  /-- Repeated binders bind the same value. -/
  unique : ∀ id check pattern check' pattern', s.Bound codes id check pattern →
    s.Bound codes id check' pattern' → check = check' ∧ pattern = pattern'

variable {s s' : GenState} {held held' : List Nat} {codes codes' : List Ty}
  {check : Ty → Ty} {pattern : Nat → Ty → Ty} {layers : List (Nat × Ty)} {parts : List Ty} {t : Ty}

/-- What occurs in code that binds layers is new, or it has occurred before. -/
theorem Occurs.of_wraps (hwraps : Wraps check pattern layers parts t) {x : Temp}
    (hx : s.Occurs (t :: codes) x) :
    OfLayer check pattern layers x ∨
      ∃ y, s.Occurs (parts ++ codes) y ∧ ∃ around ⊆ layers.map Prod.fst, x = y.within around := by
  obtain ⟨p, hp, hx⟩ | hlifted := hx
  · obtain rfl | hp := List.mem_cons.1 hp
    · obtain hnew | ⟨p, hp, y, hy, hwithin⟩ := hwraps.only x hx
      · exact .inl hnew
      · exact .inr ⟨y, .inl ⟨p, List.mem_append_left _ hp, hy⟩, hwithin⟩
    · exact .inr ⟨x, .inl ⟨p, List.mem_append_right _ hp, hx⟩, [], by simp, by simp⟩
  · exact .inr ⟨x, .inr hlifted, [], by simp, by simp⟩

/-- What has occurred before occurs in code that binds layers, too. -/
theorem Occurs.wraps (hwraps : Wraps check pattern layers parts t) {x : Temp}
    (hx : s.Occurs (parts ++ codes) x) : ∃ around, s.Occurs (t :: codes) (x.within around) := by
  obtain ⟨p, hp, hx⟩ | hlifted := hx
  · obtain hp | hp := List.mem_append.1 hp
    · obtain ⟨around, hx⟩ := hwraps.keeps p hp x hx
      exact ⟨around, .inl ⟨t, List.mem_cons_self, hx⟩⟩
    · refine ⟨[], .inl ⟨p, List.mem_cons_of_mem _ hp, ?_⟩⟩
      rwa [Temp.within_nil]
  · refine ⟨[], .inr ?_⟩
    rwa [Temp.within_nil]

/-- A binder in code that binds layers is that of a layer, or one of before. -/
theorem Bound.of_wraps (hwraps : Wraps check pattern layers parts t) {id : Nat}
    {check' pattern' : Ty} (h : s.Bound (t :: codes) id check' pattern') :
    (∃ value, (id, value) ∈ layers ∧ check' = check value ∧ pattern' = pattern id value) ∨
      s.Bound (parts ++ codes) id check' pattern' := by
  obtain ⟨around, hx⟩ := h
  obtain hnew | ⟨y, hy, outer, -, heq⟩ := hx.of_wraps hwraps
  · cases hnew with
    | binder mem fresh => exact .inl ⟨_, mem, rfl, rfl⟩
  · cases y with
    | use => cases heq
    | binder id' check'' pattern'' inner =>
      cases heq
      exact .inr ⟨inner, hy⟩

namespace Ledger

/-- The ledger depends on which ids are held or declared and on what occurs in code, and not on
where it stands. -/
theorem congr (h : s.Ledger held codes) (hnext : s'.nextId = s.nextId)
    (hids : (held' ++ s'.liftedIds).Perm (held ++ s.liftedIds))
    (hoccurs : ∀ x, s'.Occurs codes' x ↔ s.Occurs codes x) (hhidden : ∀ t ∈ codes', t.Hidden) :
    s'.Ledger held' codes' where
  positive := hnext ▸ h.positive
  hidden := hhidden
  distinct := hids.nodup_iff.2 h.distinct
  issued := by
    intro id hid
    rw [hnext]
    exact h.issued id (hids.mem_iff.1 hid)
  proper := fun x hx => h.proper x ((hoccurs x).1 hx)
  reserved := by
    intro x hx
    rw [hnext, hids.mem_iff]
    exact h.reserved x ((hoccurs x).1 hx)
  complete := by
    intro id hpos hlt
    rw [hnext] at hlt
    obtain hid | ⟨check, pattern, around, hx⟩ := h.complete id hpos hlt
    · exact .inl (hids.mem_iff.2 hid)
    · exact .inr ⟨check, pattern, around, (hoccurs _).2 hx⟩
  unique := by
    rintro id check pattern check' pattern' ⟨around, hx⟩ ⟨around', hx'⟩
    exact h.unique id check pattern check' pattern' ⟨around, (hoccurs _).1 hx⟩
      ⟨around', (hoccurs _).1 hx'⟩

theorem with_patternVars (h : s.Ledger held codes) (vars : List String) :
    Ledger { s with patternVars := vars } held codes :=
  h.congr rfl (.refl _) (fun _ => Iff.rfl) h.hidden

/-- A fresh id is held at first. -/
theorem fresh (h : s.Ledger held codes) :
    Ledger { s with nextId := s.nextId + 1 } (s.nextId :: held) codes where
  positive := Nat.le_succ_of_le h.positive
  hidden := h.hidden
  distinct := List.nodup_cons.2
    ⟨fun hmem => Nat.lt_irrefl _ (h.issued _ hmem).2, h.distinct⟩
  issued := by
    intro id hid
    obtain rfl | hid := List.mem_cons.1 hid
    · exact ⟨h.positive, Nat.lt_succ_self _⟩
    · exact ⟨(h.issued id hid).1, Nat.lt_succ_of_lt (h.issued id hid).2⟩
  proper := h.proper
  reserved := by
    intro x hx
    obtain ⟨hpos, hlt, hid⟩ := h.reserved x hx
    refine ⟨hpos, Nat.lt_succ_of_lt hlt, fun hmem => ?_⟩
    obtain heq | hmem := List.mem_cons.1 hmem
    · exact Nat.ne_of_lt hlt heq
    · exact hid hmem
  complete := by
    intro id hpos hlt
    obtain hlt | rfl := Nat.lt_succ_iff_lt_or_eq.1 hlt
    · obtain hid | hbound := h.complete id hpos hlt
      · exact .inl (List.mem_cons_of_mem _ hid)
      · exact .inr hbound
    · exact .inl List.mem_cons_self
  unique := h.unique

/-- **Ids that are held become binders**, around the code that is pending for them. -/
theorem wrap (h : s.Ledger (layers.map Prod.fst ++ held) (parts ++ codes))
    (hwraps : Wraps check pattern layers parts t) (hhidden : t.Hidden) :
    s.Ledger held (t :: codes) := by
  have hdistinct := h.distinct
  have hissued := h.issued
  have hreserved := h.reserved
  rw [List.append_assoc] at hdistinct hissued hreserved
  obtain ⟨hids, hrest, hapart⟩ := List.nodup_append.1 hdistinct
  -- Ids of layers were held and so occurred nowhere, which keeps new binders apart from old ones.
  have hold {x : Temp} (hx : s.Occurs (parts ++ codes) x) : x.id ∉ layers.map Prod.fst :=
    fun hmem => (hreserved x hx).2.2 (List.mem_append_left _ hmem)
  exact {
    positive := h.positive
    hidden := List.forall_mem_cons.2 ⟨hhidden, (List.forall_mem_append.1 h.hidden).2⟩
    distinct := hrest
    issued := fun id hid => hissued id (List.mem_append_right _ hid)
    proper := by
      intro x hx
      obtain hnew | ⟨y, hy, around, haround, rfl⟩ := hx.of_wraps hwraps
      · exact hnew.proper
      · exact (h.proper y hy).within fun hmem => hold hy (haround hmem)
    reserved := by
      intro x hx
      obtain hnew | ⟨y, hy, around, -, rfl⟩ := hx.of_wraps hwraps
      · obtain ⟨hpos, hlt⟩ := hissued x.id (List.mem_append_left _ hnew.id_mem)
        exact ⟨hpos, hlt, fun hmem => hapart x.id hnew.id_mem x.id hmem rfl⟩
      · obtain ⟨hpos, hlt, hy'⟩ := hreserved y hy
        rw [Temp.id_within]
        exact ⟨hpos, hlt, fun hmem => hy' (List.mem_append_right _ hmem)⟩
    complete := by
      intro id hpos hlt
      obtain hid | ⟨check', pattern', around, hx⟩ := h.complete id hpos hlt
      · rw [List.append_assoc] at hid
        obtain hid | hid := List.mem_append.1 hid
        · obtain ⟨⟨id, value⟩, hmem, rfl⟩ := List.mem_map.1 hid
          obtain ⟨around, hx⟩ := hwraps.binds id value hmem
          exact .inr ⟨_, _, around, .inl ⟨t, List.mem_cons_self, hx⟩⟩
        · exact .inl hid
      · obtain ⟨outer, hx⟩ := hx.wraps hwraps
        exact .inr ⟨check', pattern', _, hx⟩
    unique := by
      intro id check₁ pattern₁ check₂ pattern₂ h₁ h₂
      obtain ⟨value₁, hmem₁, rfl, rfl⟩ | hold₁ := h₁.of_wraps hwraps
      · obtain ⟨value₂, hmem₂, rfl, rfl⟩ | ⟨around₂, hx₂⟩ := h₂.of_wraps hwraps
        · cases List.inj_on_of_nodup_map hids hmem₁ hmem₂ rfl
          exact ⟨rfl, rfl⟩
        · exact absurd (List.mem_map_of_mem hmem₁) (hold hx₂)
      · obtain ⟨value₂, hmem₂, -, -⟩ | hold₂ := h₂.of_wraps hwraps
        · obtain ⟨around₁, hx₁⟩ := hold₁
          exact absurd (List.mem_map_of_mem hmem₂) (hold hx₁)
        · exact h.unique id check₁ pattern₁ check₂ pattern₂ hold₁ hold₂ }

end Ledger

end GenState

namespace Gen

variable {α β : Type}

/-! ## The ids that a run hands out -/

/-- Started in a state, a computation succeeds and leaves a state, and on its way it hands out
ids, one after the other. -/
inductive Hands : {α : Type} → Gen α → GenState → α → GenState → List Nat → Prop where
  | pure {α : Type} (a : α) (s : GenState) : Hands (pure a) s a s []
  | freshId (s : GenState) :
      Hands freshId s s.nextId { s with nextId := s.nextId + 1 } [s.nextId]
  | patternVars (s : GenState) : Hands patternVars s s.patternVars s []
  /-- Steps that do not touch the supply of ids. -/
  | modify {f : GenState → GenState} (hf : ∀ s, (f s).nextId = s.nextId) (s : GenState) :
      Hands (modify f) s () (f s) []
  | bind {α β : Type} {m : Gen α} {f : α → Gen β} {s t s' : GenState} {a : α} {b : β}
      {ids more : List Nat} (hm : Hands m s a t ids) (hf : Hands (f a) t b s' more) :
      Hands (m >>= f) s b s' (ids ++ more)
  | withPatternVars {α : Type} {m : Gen α} {vars : List String} {s t : GenState} {a : α}
      {ids : List Nat} (hm : Hands m { s with patternVars := vars } a t ids) :
      Hands (withPatternVars vars m) s a { t with patternVars := s.patternVars } ids

variable {m : Gen α} {f : α → Gen β} {s s' : GenState} {a : α}

theorem Hands.yields {ids : List Nat} (h : Hands m s a s' ids) : m.Yields s a s' := by
  induction h with
  | pure a s => exact yields_pure.2 ⟨rfl, rfl⟩
  | freshId s => exact yields_freshId.2 ⟨rfl, rfl⟩
  | patternVars s => exact yields_patternVars.2 ⟨rfl, rfl⟩
  | modify hf s => exact yields_modify.2 rfl
  | bind _ _ ihm ihf => exact yields_bind.2 ⟨_, _, ihm, ihf⟩
  | withPatternVars _ ih => exact yields_withPatternVars.2 ⟨_, ih, rfl⟩

theorem hands_of_yields_modify {g : GenState → GenState} {u : Unit}
    (hg : ∀ s, (g s).nextId = s.nextId) (h : Yields (modify g) s u s') :
    Hands (modify g) s u s' [] := by
  obtain rfl := yields_modify.1 h
  exact .modify hg s

/-- The ids of a run are successive, and the supply goes on behind them. -/
theorem Hands.eq_range {ids : List Nat} (h : Hands m s a s' ids) :
    ids = List.range' s.nextId ids.length ∧ s'.nextId = s.nextId + ids.length := by
  induction h with
  | pure | patternVars => exact ⟨rfl, rfl⟩
  | freshId s => exact ⟨rfl, rfl⟩
  | modify hf s => exact ⟨rfl, hf s⟩
  | @bind _ _ _ _ _ _ _ _ _ ids more _ _ ihm ihf =>
    constructor
    · rw [List.length_append, ← List.range'_append_1, ← ihm.1, ← ihm.2, ← ihf.1]
    · rw [ihf.2, ihm.2, List.length_append, Nat.add_assoc]
  | withPatternVars _ ih => exact ih

/-! ## Computations that keep the ledger -/

/-- Every run of the computation hands out ids one after the other.  If it starts with the ids
`ids` held and the code `before` pending for it, then it leaves those given by its result, and
nothing else in the ledger changes. -/
def Accounts (ids : List Nat) (before : List Ty) (m : Gen α) (ids' : α → List Nat)
    (after : α → List Ty) : Prop :=
  ∀ ⦃s : GenState⦄ ⦃a : α⦄ ⦃s' : GenState⦄, m.Yields s a s' →
    (∃ handed, Hands m s a s' handed) ∧
      ∀ held codes, s.Ledger (ids ++ held) (before ++ codes) →
        s'.Ledger (ids' a ++ held) (after a ++ codes)

/-- The computation starts with nothing and makes code. -/
def Emits (tys : α → List Ty) (m : Gen α) : Prop := Accounts [] [] m (fun _ => []) tys

variable {ids : List Nat} {before : List Ty} {ids' : α → List Nat} {after : α → List Ty}
  {ids'' : β → List Nat} {after'' : β → List Ty}

/-- Ids and code may be taken up in other forms, as long as the same ids are held and the same
names occur. -/
theorem Accounts.of_temps {held : List Nat} {codes : List Ty}
    (hm : Accounts ids before m ids' after) (hids : ids.Perm held)
    (htemps : (∀ t ∈ codes, t.Hidden) →
      ∀ x, (∃ t ∈ before, x ∈ t.temps []) ↔ ∃ t ∈ codes, x ∈ t.temps [])
    (hhidden : (∀ t ∈ codes, t.Hidden) → ∀ t ∈ before, t.Hidden) :
    Accounts held codes m ids' after := by
  intro s a s' h
  refine ⟨(hm h).1, fun more rest hs => (hm h).2 more rest ?_⟩
  obtain ⟨hcodes, hrest⟩ := List.forall_mem_append.1 hs.hidden
  refine hs.congr rfl ((hids.append_right _).append_right _) (fun x => ?_) ?_
  · simp only [GenState.Occurs, List.mem_append, or_and_right, exists_or, htemps hcodes x]
  · exact List.forall_mem_append.2 ⟨hhidden hcodes, hrest⟩

/-- The order of code does not matter. -/
theorem Accounts.of_perm {codes : List Ty} (hm : Accounts ids before m ids' after)
    (hperm : before.Perm codes) : Accounts ids codes m ids' after :=
  hm.of_temps (.refl _) (fun _ _ => by simp only [hperm.mem_iff])
    fun h t ht => h t (hperm.mem_iff.1 ht)

theorem accounts_pure (hids : ids' a = ids) (hafter : after a = before) :
    Accounts ids before (pure a) ids' after := by
  subst hids hafter
  intro s b s' h
  obtain ⟨rfl, rfl⟩ := yields_pure.1 h
  exact ⟨⟨[], .pure b s'⟩, fun held codes hs => hs⟩

theorem accounts_fail (pos : Position) (error : GenError) :
    Accounts ids before (fail pos error) ids' after :=
  fun _ _ _ h => absurd h yields_fail

/-- One computation behind another. -/
theorem Accounts.bind_of {P : α → Prop} (hm : Accounts ids before m ids' after) (hP : Returns P m)
    (hf : ∀ a, P a → Accounts (ids' a) (after a) (f a) ids'' after'') :
    Accounts ids before (m >>= f) ids'' after'' := by
  intro s b s' h
  obtain ⟨a, t, ha, hb⟩ := yields_bind.1 h
  obtain ⟨⟨handed, hhands⟩, hledger⟩ := hm ha
  obtain ⟨⟨more, hmore⟩, hledger'⟩ := hf a (hP ha) hb
  exact ⟨⟨_, hhands.bind hmore⟩, fun held codes hs => hledger' held codes (hledger held codes hs)⟩

theorem Accounts.bind (hm : Accounts ids before m ids' after)
    (hf : ∀ a, Accounts (ids' a) (after a) (f a) ids'' after'') :
    Accounts ids before (m >>= f) ids'' after'' :=
  hm.bind_of (P := fun _ => True) (fun _ _ _ _ => trivial) fun a _ => hf a

/-- What is held or pending for others does not matter. -/
theorem Accounts.frame (hm : Accounts ids before m ids' after) (more : List Nat) (rest : List Ty) :
    Accounts (ids ++ more) (before ++ rest) m (fun a => ids' a ++ more)
      (fun a => after a ++ rest) := by
  intro s a s' h
  refine ⟨(hm h).1, fun held codes hs => ?_⟩
  rw [List.append_assoc, List.append_assoc] at hs ⊢
  exact (hm h).2 (more ++ held) (rest ++ codes) hs

/-- Code is made and left to the computation behind it. -/
theorem Emits.bind {tys : α → List Ty} (hm : Emits tys m)
    (hf : ∀ a, Accounts ids (tys a ++ before) (f a) ids'' after'') :
    Accounts ids before (m >>= f) ids'' after'' :=
  Accounts.bind (hm.frame ids before) hf

theorem Emits.bind_of {P : α → Prop} {tys : α → List Ty} (hm : Emits tys m) (hP : Returns P m)
    (hf : ∀ a, P a → Accounts ids (tys a ++ before) (f a) ids'' after'') :
    Accounts ids before (m >>= f) ids'' after'' :=
  Accounts.bind_of (hm.frame ids before) hP hf

/-- Two computations one behind the other, whose results are put together. -/
theorem Accounts.pair {γ : Type} {n : Gen β} {g : α → β → γ} {both : γ → List Nat}
    {made : γ → List Ty} (hm : Accounts [] [] m ids' after) (hn : Accounts [] [] n ids'' after'')
    (hids : ∀ a b, both (g a b) = ids' a ++ ids'' b)
    (hafter : ∀ a b, made (g a b) = after a ++ after'' b) :
    Accounts [] [] (do let a ← m; let b ← n; return g a b) both made := by
  refine hm.bind fun a => Accounts.bind (hn.frame (ids' a) (after a)) fun b => ?_
  have hperm : (made (g a b)).Perm (after'' b ++ after a) := by
    rw [hafter]
    exact List.perm_append_comm
  refine Accounts.of_temps (Accounts.of_perm (accounts_pure rfl rfl) hperm) ?_ (fun _ _ => Iff.rfl)
    fun h => h
  rw [hids]
  exact List.perm_append_comm

/-! ## The steps on the state -/

theorem accounts_freshId : Accounts ids before freshId (fun id => id :: ids) (fun _ => before) := by
  intro s id s' h
  obtain ⟨rfl, rfl⟩ := yields_freshId.1 h
  exact ⟨⟨_, .freshId s⟩, fun held codes hs => hs.fresh⟩

theorem accounts_freshIds (bs : List β) :
    Accounts ids before (freshIds bs) (fun fresh => fresh ++ ids) (fun _ => before) := by
  induction bs generalizing ids with
  | nil => exact accounts_pure rfl rfl
  | cons b bs ih =>
    refine accounts_freshId.bind fun id => ih.bind fun fresh => ?_
    exact (accounts_pure rfl rfl).of_temps List.perm_middle.symm (fun _ _ => Iff.rfl) fun h => h

/-- A step that leaves the ids and the lifted functions alone. -/
theorem emits_modify {g : GenState → GenState} (hnext : ∀ s, (g s).nextId = s.nextId)
    (hlifted : ∀ s, (g s).lifted = s.lifted) : Emits (fun _ => []) (modify g : Gen Unit) := by
  intro s u s' h
  refine ⟨⟨[], hands_of_yields_modify hnext h⟩, fun held codes hs => ?_⟩
  obtain rfl := yields_modify.1 h
  refine hs.congr (hnext s) ?_ (fun x => ?_) hs.hidden
  · rw [GenState.liftedIds, GenState.liftedIds, hlifted]
  · rw [GenState.Occurs, GenState.Occurs, hlifted]

theorem emits_require (symbol : Symbol) : Emits (fun _ => []) (require symbol) :=
  emits_modify (fun _ => rfl) fun _ => rfl

theorem emits_patternVars : Emits (fun _ => []) patternVars := by
  intro s vars s' h
  obtain ⟨rfl, rfl⟩ := yields_patternVars.1 h
  exact ⟨⟨[], .patternVars s'⟩, fun held codes hs => hs⟩

theorem Accounts.withPatternVars (hm : Accounts ids before m ids' after) (vars : List String) :
    Accounts ids before (withPatternVars vars m) ids' after := by
  intro s a s' h
  obtain ⟨t, ht, rfl⟩ := yields_withPatternVars.1 h
  obtain ⟨⟨handed, hhands⟩, hledger⟩ := hm ht
  refine ⟨⟨handed, hhands.withPatternVars⟩, fun held codes hs => ?_⟩
  exact (hledger held codes (hs.with_patternVars vars)).with_patternVars s.patternVars

/-- An id that is held becomes the number of a lifted function, with code that is pending. -/
theorem accounts_addLifted {name : Name} {id : Nat} (hname : name.liftedId? = some id) (body : Ty) :
    Accounts [id] [body] (addLifted name body) (fun _ => []) (fun _ => []) := by
  unfold addLifted
  intro s u s' h
  refine ⟨⟨[], hands_of_yields_modify (fun _ => rfl) h⟩, fun held codes hs => ?_⟩
  obtain rfl := yields_modify.1 h
  refine hs.congr rfl ?_ (fun x => ?_) (List.forall_mem_cons.1 hs.hidden).2
  · have hids : GenState.liftedIds { s with lifted := s.lifted ++ [⟨name, body⟩] } =
        s.liftedIds ++ [id] := by
      simp [GenState.liftedIds, hname]
    rw [hids, List.nil_append, ← List.append_assoc]
    exact List.perm_append_singleton _ _
  · simp only [GenState.Occurs, List.mem_append, List.nil_append, List.not_mem_nil, or_and_right,
      exists_or, exists_eq_left, List.singleton_append, List.mem_cons, or_false]
    exact (or_assoc.symm.trans or_comm).trans or_assoc.symm

end Gen

end TypeForge
