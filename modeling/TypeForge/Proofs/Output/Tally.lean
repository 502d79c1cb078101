import TypeForge.Proofs.Generate.Runs
import TypeForge.Proofs.Lowering.Operators
import TypeForge.Proofs.Output.Atoms
import TypeForge.Proofs.Scope
import TypeForge.Proofs.Scoping.Target
import Mathlib.Data.List.Nodup

/-!
# The books of code generation

Symbols are noted for import, and functions are lifted, at other places than where the code
that needs them ends up.  What holds the two together is a tally between the state and the code
that has been generated and is not yet part of a lifted function: the pending code.  The noted
symbols are those of the pending code and of the lifted functions; a lifted function mentions
only functions lifted before it; and it is itself mentioned by the pending code or by a function
lifted after it.

Every construct keeps the tally, where its own code becomes pending in the place of the code of
its parts.
-/

namespace TypeForge

open TypeScript

/-- The members of library symbols that generated code makes use of. -/
def memberNames : List String := ["Equals", "And", "Or", "Not", "With"]

variable {texts : List SourceText} {pending pending' : List Atom}

/-- A text of the program, the number that stands for truth, or a member of a library symbol. -/
def TypeScript.Atom.Neutral (texts : List SourceText) : Atom → Prop
  | .source text => text ∈ texts ∨ text = .number "1"
  | .member name => name ∈ memberNames
  | .symbol _ | .lifted _ => False

/-- What an atom of generated code can be. -/
def TypeScript.Atom.Known (texts : List SourceText) : Atom → Prop
  | .symbol s => s ∈ Symbol.emitted
  | .lifted name => name.isLifted = true
  | atom => atom.Neutral texts

theorem TypeScript.Atom.Neutral.known {atom : Atom} (h : atom.Neutral texts) : atom.Known texts := by
  cases atom with
  | source text | member name => exact h
  | symbol s | lifted name => cases h

/-- The pending code holds all of the noted symbols and lifted functions that are not accounted
for by lifted functions. -/
structure GenState.Tally (texts : List SourceText) (pending : List Atom) (s : GenState) : Prop where
  imports : ∀ x, x ∈ s.imports ↔ .symbol x ∈ pending ∨ ∃ f ∈ s.lifted, .symbol x ∈ f.atoms
  nodup : s.imports.Nodup
  /-- What the pending code mentions is declared. -/
  present : ∀ name, .lifted name ∈ pending → name ∈ s.lifted.map Interface.name
  /-- What a lifted function mentions is declared before it. -/
  ordered : ∀ before f after, s.lifted = before ++ f :: after →
    ∀ name, .lifted name ∈ f.atoms → name ∈ before.map Interface.name
  /-- A lifted function is mentioned behind its declaration. -/
  used : ∀ before f after, s.lifted = before ++ f :: after →
    .lifted f.name ∈ pending ∨ ∃ g ∈ after, .lifted f.name ∈ g.atoms
  pending : ∀ atom ∈ pending, atom.Known texts
  lifted : ∀ f ∈ s.lifted, ∀ atom ∈ f.atoms, atom.Known texts
  patternVars : ∀ x ∈ s.patternVars, .name x ∈ texts

/-- Code that has the same symbols and lifted functions as the pending code. -/
structure Absorbs (texts : List SourceText) (pending pending' : List Atom) : Prop where
  kept : ∀ atom ∈ pending, atom ∈ pending' ∨ atom.Neutral texts
  added : ∀ atom ∈ pending', atom ∈ pending ∨ atom.Neutral texts

theorem absorbs_of_mem_iff (h : ∀ atom, atom ∈ pending ↔ atom ∈ pending') :
    Absorbs texts pending pending' where
  kept _ hatom := .inl ((h _).1 hatom)
  added _ hatom := .inl ((h _).2 hatom)

theorem absorbs_of_mem (h : ∀ atom, (atom ∈ pending → atom ∈ pending' ∨ atom.Neutral texts) ∧
    (atom ∈ pending' → atom ∈ pending ∨ atom.Neutral texts)) : Absorbs texts pending pending' where
  kept atom := (h atom).1
  added atom := (h atom).2

theorem Absorbs.append_left (h : Absorbs texts pending pending') (front : List Atom) :
    Absorbs texts (front ++ pending) (front ++ pending') := by
  have hkept := h.kept
  have hadded := h.added
  exact absorbs_of_mem fun atom => by grind

/-- Texts and members may stand in front of the pending code of a construct. -/
theorem absorbs_cons {atom : Atom} (h : atom.Neutral texts) : Absorbs texts pending (atom :: pending) where
  kept _ hatom := .inl (List.mem_cons_of_mem _ hatom)
  added _ hatom := by
    rcases List.mem_cons.1 hatom with rfl | hatom
    · exact .inr h
    · exact .inl hatom

theorem absorbs_concat {atom : Atom} (h : atom.Neutral texts) :
    Absorbs texts pending (pending ++ [atom]) := by
  have hcons : Absorbs texts [] [atom] := absorbs_cons h
  have hbehind := hcons.append_left pending
  rwa [List.append_nil] at hbehind

theorem Absorbs.symbol_iff (h : Absorbs texts pending pending') (x : Symbol) :
    .symbol x ∈ pending' ↔ .symbol x ∈ pending :=
  ⟨fun hx => (h.added _ hx).resolve_right id, fun hx => (h.kept _ hx).resolve_right id⟩

theorem Absorbs.lifted_iff (h : Absorbs texts pending pending') (name : Name) :
    .lifted name ∈ pending' ↔ .lifted name ∈ pending :=
  ⟨fun hx => (h.added _ hx).resolve_right id, fun hx => (h.kept _ hx).resolve_right id⟩

namespace GenState.Tally

variable {s : GenState}

/-- Only the symbols and the lifted functions of the pending code count. -/
theorem absorb (h : s.Tally texts pending) (habsorbs : Absorbs texts pending pending') :
    s.Tally texts pending' where
  imports x := by rw [h.imports, habsorbs.symbol_iff]
  nodup := h.nodup
  present name hname := h.present name ((habsorbs.lifted_iff name).1 hname)
  ordered := h.ordered
  used before f after hsplit := by
    rw [habsorbs.lifted_iff]
    exact h.used before f after hsplit
  pending atom hatom := (habsorbs.added atom hatom).elim (h.pending atom) Atom.Neutral.known
  lifted := h.lifted
  patternVars := h.patternVars

/-- Ids do not count. -/
theorem withId (h : s.Tally texts pending) (id : Nat) :
    Tally texts pending { s with nextId := id } := by
  cases h
  constructor <;> assumption

theorem withPatternVars (h : s.Tally texts pending) {vars : List String}
    (hvars : ∀ x ∈ vars, .name x ∈ texts) : Tally texts pending { s with patternVars := vars } := by
  cases h
  constructor <;> assumption

/-- A symbol that is noted becomes pending. -/
theorem require (h : s.Tally texts pending) {x : Symbol} (hx : x ∈ Symbol.emitted) :
    Tally texts (pending ++ [.symbol x])
      { s with imports := if x ∈ s.imports then s.imports else s.imports ++ [x] } where
  imports y := by
    have hmem : y ∈ (if x ∈ s.imports then s.imports else s.imports ++ [x]) ↔
        y ∈ s.imports ∨ y = x := by
      by_cases hnoted : x ∈ s.imports
      · rw [if_pos hnoted]
        constructor
        · exact .inl
        · rintro (hy | rfl)
          · exact hy
          · exact hnoted
      · rw [if_neg hnoted, List.mem_append, List.mem_singleton]
    rw [hmem, h.imports, or_right_comm]
    simp only [List.mem_append, List.mem_singleton, Atom.symbol.injEq]
  nodup := by
    by_cases hnoted : x ∈ s.imports
    · simpa only [if_pos hnoted] using h.nodup
    · simp only [if_neg hnoted]
      rw [← List.concat_eq_append]
      exact h.nodup.concat hnoted
  present name hname := h.present name (by simpa using hname)
  ordered := h.ordered
  used before f after hsplit := (h.used before f after hsplit).imp_left (List.mem_append_left _)
  pending := List.forall_mem_append.2 ⟨h.pending, List.forall_mem_singleton.2 hx⟩
  lifted := h.lifted
  patternVars := h.patternVars

/-- The two ways to split a list with one more item at its end. -/
theorem split_concat {before after fs : List Interface} {f g : Interface}
    (h : fs ++ [g] = before ++ f :: after) :
    (before = fs ∧ f = g ∧ after = []) ∨
      ∃ after', after = after' ++ [g] ∧ fs = before ++ f :: after' := by
  rcases List.eq_nil_or_concat after with rfl | ⟨after', last, rfl⟩
  · obtain ⟨rfl, hlast⟩ := List.append_inj' h rfl
    exact .inl ⟨rfl, (List.cons.inj hlast).1.symm, rfl⟩
  · rw [List.concat_eq_append, ← List.cons_append, ← List.append_assoc] at h
    obtain ⟨rfl, hlast⟩ := List.append_inj' h rfl
    exact .inr ⟨after', by rw [List.concat_eq_append, (List.cons.inj hlast).1], rfl⟩

/-- **A function that is lifted accounts for its pending code**, and its name becomes pending
instead. -/
theorem lift {rest : List Atom} {f : Interface} (h : s.Tally texts (rest ++ f.atoms))
    (hlifted : f.name.isLifted = true) :
    Tally texts (rest ++ [.lifted f.name]) { s with lifted := s.lifted ++ [f] } where
  imports x := by
    rw [h.imports]
    simp only [List.mem_append, List.mem_singleton, reduceCtorEq, or_false, or_and_right, exists_or,
      exists_eq_left]
    rw [or_assoc, or_comm (a := .symbol x ∈ f.atoms)]
  nodup := h.nodup
  present name hname := by
    rw [List.map_append, List.mem_append]
    rcases List.mem_append.1 hname with hname | hname
    · exact .inl (h.present name (List.mem_append_left _ hname))
    · cases List.mem_singleton.1 hname
      exact .inr (List.mem_singleton_self _)
  ordered before g after hsplit name hname := by
    rcases split_concat hsplit with ⟨rfl, rfl, rfl⟩ | ⟨after', rfl, hsplit'⟩
    · exact h.present name (List.mem_append_right _ hname)
    · exact h.ordered before g after' hsplit' name hname
  used before g after hsplit := by
    rcases split_concat hsplit with ⟨rfl, rfl, rfl⟩ | ⟨after', rfl, hsplit'⟩
    · exact .inl (List.mem_append_right _ (List.mem_singleton_self _))
    · rcases h.used before g after' hsplit' with hpending | ⟨user, huser, hname⟩
      · -- the pending code has become the body of the new function, or still waits
        rcases List.mem_append.1 hpending with hrest | hbody
        · exact .inl (List.mem_append_left _ hrest)
        · exact .inr ⟨f, List.mem_append_right _ (List.mem_singleton_self f), hbody⟩
      · exact .inr ⟨user, List.mem_append_left _ huser, hname⟩
  pending := by
    have hrest : ∀ atom ∈ rest, atom.Known texts :=
      fun atom hatom => h.pending atom (List.mem_append_left _ hatom)
    exact List.forall_mem_append.2 ⟨hrest, List.forall_mem_singleton.2 hlifted⟩
  lifted := by
    have hbody : ∀ atom ∈ f.atoms, atom.Known texts :=
      fun atom hatom => h.pending atom (List.mem_append_right _ hatom)
    exact List.forall_mem_append.2 ⟨h.lifted, List.forall_mem_singleton.2 hbody⟩
  patternVars := h.patternVars

end GenState.Tally

/-- A place where all names that are bound are names of the program. -/
def Context.Named (texts : List SourceText) (ctx : Context) : Prop :=
  ∀ x, ctx.scope.resolve x ≠ .unbound → .name x ∈ texts

theorem Context.Named.bind {ctx : Context} (h : ctx.Named texts) {name : String}
    (hname : .name name ∈ texts) : (ctx.bind name).Named texts := by
  intro x hx
  by_cases heq : x = name
  · rw [heq]
    exact hname
  · rw [Context.bind, Scope.resolve_bind_of_ne heq] at hx
    exact h x hx

theorem Context.Named.captures {ctx : Context} (h : ctx.Named texts) {vars own : List String}
    (hvars : ∀ x ∈ vars, .name x ∈ texts) :
    ∀ x ∈ ctx.scope.captures vars own, .name x ∈ texts := by
  intro x hx
  obtain ⟨-, hbound⟩ := Scope.mem_captures_iff.1 hx
  exact hbound.elim (hvars x) (h x)

theorem Context.named_inside (ctx : Context) {captures own : List String}
    (hcaptures : ∀ x ∈ captures, .name x ∈ texts) (hown : ∀ x ∈ own, .name x ∈ texts)
    (mode : Option PatternMode) : (ctx.inside captures own mode).Named texts := by
  intro x hx
  by_cases hcaptured : x ∈ captures
  · exact hcaptures x hcaptured
  · by_cases hparam : x ∈ own
    · exact hown x hparam
    · exact absurd (Scope.resolve_closure_eq_unbound_iff.2 ⟨hcaptured, hparam⟩) hx

namespace Gen

variable {α β : Type} {m : Gen α} {f : α → Gen β} {pre : List Atom} {mid : α → List Atom}
  {post : β → List Atom}

/-! ## Computations that keep the tally -/

/-- From a state that fits the pending code `pre`, a successful run of `m` with result `a` leads
to one that fits `post a`. -/
def Generates (texts : List SourceText) (pre : List Atom) (m : Gen α) (post : α → List Atom) : Prop :=
  ∀ ⦃s : GenState⦄ ⦃a : α⦄ ⦃s' : GenState⦄, m.Yields s a s' → s.Tally texts pre →
    s'.Tally texts (post a)

theorem generates_fail (pos : Position) (error : GenError) :
    Generates texts pre (fail pos error) mid :=
  fun _ _ _ h => absurd h yields_fail

theorem generates_pure {a : α} (h : Absorbs texts pre (mid a)) : Generates texts pre (pure a) mid := by
  intro s b s' hrun hs
  obtain ⟨rfl, rfl⟩ := yields_pure.1 hrun
  exact hs.absorb h

theorem generates_same {a : α} (h : ∀ atom, atom ∈ pre ↔ atom ∈ mid a) : Generates texts pre (pure a) mid :=
  generates_pure (absorbs_of_mem_iff h)

theorem Generates.bind (hm : Generates texts pre m mid) (hf : ∀ a, Generates texts (mid a) (f a) post) :
    Generates texts pre (m >>= f) post := by
  intro s b s' hrun hs
  obtain ⟨a, t, ha, hb⟩ := yields_bind.1 hrun
  exact hf a hb (hm ha hs)

/-- A computation whose results have a property in front of another. -/
theorem Generates.bind_of_returns {P : α → Prop} (hm : Generates texts pre m mid) (hP : Returns P m)
    (hf : ∀ a, P a → Generates texts (mid a) (f a) post) : Generates texts pre (m >>= f) post := by
  intro s b s' hrun hs
  obtain ⟨a, t, ha, hb⟩ := yields_bind.1 hrun
  exact hf a (hP ha) hb (hm ha hs)

theorem Generates.of_absorbs {pre' : List Atom} (hm : Generates texts pre m mid)
    (h : Absorbs texts pre' pre) : Generates texts pre' m mid :=
  fun _ _ _ hrun hs => hm hrun (hs.absorb h)

/-- What a computation adds shows behind any function of its result. -/
theorem Generates.of_map {g : α → β} (h : Generates texts pre (do return g (← m)) post) :
    Generates texts pre m fun a => post (g a) :=
  fun _ a _ hrun => h (yields_bind.2 ⟨a, _, hrun, yields_pure.2 ⟨rfl, rfl⟩⟩)

theorem generates_freshId : Generates texts pre freshId fun _ => pre := by
  intro s id s' hrun hs
  rw [(yields_freshId.1 hrun).2]
  exact hs.withId _

theorem generates_freshIds (bs : List β) : Generates texts pre (freshIds bs) fun _ => pre := by
  induction bs with
  | nil => exact generates_same fun _ => Iff.rfl
  | cons b bs ih =>
    exact generates_freshId.bind fun id => ih.bind fun ids => generates_same fun _ => Iff.rfl

theorem generates_require {x : Symbol} (hx : x ∈ Symbol.emitted) :
    Generates texts pre (require x) fun _ => pre ++ [.symbol x] := by
  intro s u s' hrun hs
  rw [yields_modify.1 hrun]
  exact hs.require hx

/-- Pattern variables are names of the program. -/
theorem generates_patternVars_bind {g : List String → Gen β}
    (hg : ∀ vars, (∀ x ∈ vars, .name x ∈ texts) → Generates texts pre (g vars) post) :
    Generates texts pre (patternVars >>= g) post := by
  intro s b s' hrun hs
  obtain ⟨vars, t, hvars, hb⟩ := yields_bind.1 hrun
  obtain ⟨rfl, rfl⟩ := yields_patternVars.1 hvars
  exact hg _ hs.patternVars hb hs

theorem generates_withPatternVars {vars : List String} (hvars : ∀ x ∈ vars, .name x ∈ texts)
    (hm : Generates texts pre m mid) : Generates texts pre (withPatternVars vars m) mid := by
  intro s a s' hrun hs
  obtain ⟨t, hrun', rfl⟩ := yields_withPatternVars.1 hrun
  exact (hm hrun' (hs.withPatternVars hvars)).withPatternVars hs.patternVars

theorem generates_addLifted (rest : List Atom) {name : Name} (hname : name.isLifted = true) (body : Ty) :
    Generates texts (rest ++ (Interface.mk name body).atoms) (addLifted name body)
      fun _ => rest ++ [.lifted name] := by
  intro s u s' hrun hs
  rw [yields_modify.1 hrun]
  exact hs.lift hname

/-! ## The constructs -/

theorem atoms_bindOperands {isNumeric : Bool} {ids : List Nat} {operands : List Ty}
    (h : ids.length = operands.length) (body : Ty) :
    (bindOperands (operandBound isNumeric) (ids.zip operands) body).atoms =
      atomsOfTys operands ++ body.atoms := by
  have hbound : atomsOfOption (operandBound isNumeric) = [] := by cases isNumeric <;> rfl
  induction operands generalizing ids with
  | nil => simp [bindOperands]
  | cons operand operands ih =>
    cases ids with
    | nil => cases h
    | cons id ids =>
      have hrest := ih (Nat.succ.inj h)
      simp [bindOperands, Ty.bind, Ty.never, hbound, hrest]

theorem atoms_temps (ids : List Nat) : atomsOfTys (ids.map fun id => .name (.temp id)) = [] := by
  induction ids with
  | nil => rfl
  | cons id ids ih => simpa using ih

theorem mem_atoms_symbol {atom : Atom} {s : Symbol} {member : Option String} :
    atom ∈ (Ty.symbol s member).atoms ↔ atom = .symbol s ∨ ∃ name ∈ member, atom = .member name := by
  cases member <;> simp

/-- The result of a combinator has the symbols that are noted for it. -/
theorem absorbs_combinatorResult {c : Combinator} (hc : c ∈ Lowering.operators) (ids : List Nat) :
    Absorbs texts (.symbol c.symbol :: if c.application = .direct then [] else [.symbol .call])
      (combinatorResult c ids).atoms := by
  have hmember : ∀ name ∈ c.member, (Atom.member name).Neutral texts := by
    have hmembers : ∀ c ∈ Lowering.operators, ∀ name ∈ c.member, name ∈ memberNames := by decide
    exact hmembers c hc
  have hone : (Atom.source (.number "1")).Neutral texts := .inr rfl
  have hcall : ∀ atom, atom ∈ (combinatorCall c (ids.map fun id => .name (.temp id))).atoms ↔
      atom ∈ (Ty.symbol c.symbol c.member).atoms ∨ (c.application ≠ .direct ∧ atom = .symbol .call) := by
    intro atom
    unfold combinatorCall
    cases c.application <;> simp [Ty.applied, Ty.ofSymbol, atoms_temps, or_comm]
  have hresult : ∀ atom, atom ∈ (combinatorResult c ids).atoms ↔
      atom ∈ (combinatorCall c (ids.map fun id => .name (.temp id))).atoms ∨
        (c.yieldsBit = true ∧ atom = .source (.number "1")) := by
    intro atom
    unfold combinatorResult
    cases c.yieldsBit <;> simp [truthOfBit]
  refine absorbs_of_mem fun atom => ?_
  rw [hresult, hcall, mem_atoms_symbol]
  grind

theorem generates_combine {c : Combinator} (hc : c ∈ Lowering.operators) (operands : List Ty) :
    Generates texts (pre ++ atomsOfTys operands) (combine c operands) fun t => pre ++ t.atoms := by
  refine (generates_require (Symbol.mem_emitted_of_operator hc)).bind fun _ => ?_
  refine (generates_freshIds operands).bind_of_returns (returns_freshIds operands) fun ids hids => ?_
  have hatoms (result : Ty) :
      pre ++ (Ty.paren (bindOperands (operandBound c.isNumeric) (ids.zip operands) result)).atoms =
        pre ++ atomsOfTys operands ++ result.atoms := by
    rw [Ty.atoms, atoms_bindOperands hids, List.append_assoc]
  have habsorbs : Absorbs texts _ (pre ++ atomsOfTys operands ++ (combinatorResult c ids).atoms) :=
    (absorbs_combinatorResult hc ids).append_left (pre ++ atomsOfTys operands)
  by_cases h : c.application = .direct
  · simp only [h, ne_eq, not_true, if_false, if_true] at habsorbs ⊢
    refine generates_pure ?_
    rw [hatoms]
    exact habsorbs
  · simp only [h, ne_eq, not_false_eq_true, if_true, if_false] at habsorbs ⊢
    refine (generates_require (by decide)).bind fun _ => generates_pure ?_
    rw [hatoms, List.append_assoc]
    exact habsorbs

theorem generates_binary (op : BinaryOp) (lhs rhs : Ty) :
    Generates texts (pre ++ (lhs.atoms ++ rhs.atoms)) (binary op lhs rhs) fun t => pre ++ t.atoms := by
  unfold binary
  split
  · exact generates_same fun _ => by simp
  · next c hc =>
    have hcombine : Generates texts (pre ++ atomsOfTys [lhs, rhs]) (combine c [lhs, rhs])
        fun t => pre ++ t.atoms := generates_combine (Lowering.combinator_mem_operators hc) _
    simpa using hcombine

theorem generates_unary (op : UnaryOp) (operand : Ty) :
    Generates texts (pre ++ operand.atoms) (unary op operand) fun t => pre ++ t.atoms := by
  unfold unary
  split
  · refine generates_freshId.bind fun id => generates_same fun _ => ?_
    simp [bindOperands, Ty.bind, Ty.never, operandBound]
  · next c hc =>
    have hcombine : Generates texts (pre ++ atomsOfTys [operand]) (combine c [operand])
        fun t => pre ++ t.atoms := generates_combine (Lowering.unary_mem_operators hc) _
    simpa using hcombine

theorem mem_atoms_bindArgs {atom : Atom} {args : List (Nat × Ty)} {body : Ty} :
    atom ∈ (bindArgs args body).atoms ↔ atom ∈ atomsOfTys (args.map Prod.snd) ∨ atom ∈ body.atoms := by
  induction args with
  | nil => simp [bindArgs]
  | cons arg args ih => simp [bindArgs, Ty.bindExactly, Ty.bind, Ty.never, ih, or_assoc]

theorem generates_application (arity : Option Nat) (callee : Ty) (ids : List Nat) :
    Generates texts (pre ++ callee.atoms) (application arity callee (ids.map fun id => .name (.temp id)))
      fun t => pre ++ t.atoms := by
  have hall : Symbol.applyAll ∈ Symbol.emitted := by decide
  have hpart : Symbol.applyPart ∈ Symbol.emitted := by decide
  unfold application
  split
  · split
    · refine (generates_require hall).bind fun _ => generates_same fun _ => ?_
      simp [Ty.applied, Ty.ofSymbol, atoms_temps, or_comm]
    · refine (generates_require hpart).bind fun _ => generates_same fun _ => ?_
      simp [Ty.applied, Ty.ofSymbol, atoms_temps, or_comm]
  · refine (generates_require hall).bind fun _ => (generates_require hpart).bind fun _ => ?_
    refine generates_same fun _ => ?_
    simp only [Ty.applied, Ty.ofSymbol, Ty.never, Ty.atoms, atomsOfTys, atoms_temps, List.mem_append,
      List.mem_singleton, List.append_nil, List.nil_append]
    grind

theorem generates_applyCall (arity : Option Nat) (callee : Ty) (args : List (Nat × Ty)) :
    Generates texts (pre ++ (atomsOfTys (args.map Prod.snd) ++ callee.atoms)) (applyCall arity callee args)
      fun t => pre ++ t.atoms := by
  have hlast (body : Ty) : Absorbs texts (pre ++ atomsOfTys (args.map Prod.snd) ++ body.atoms)
      (pre ++ (Ty.paren (bindArgs args body)).atoms) := by
    refine absorbs_of_mem_iff fun _ => ?_
    rw [Ty.atoms, List.mem_append, List.mem_append, List.mem_append, mem_atoms_bindArgs, or_assoc]
  rw [← List.append_assoc]
  unfold applyCall
  split
  · exact generates_pure (hlast callee)
  · have happlication : Generates texts (pre ++ atomsOfTys (args.map Prod.snd) ++ callee.atoms) _
        fun t : Ty => pre ++ atomsOfTys (args.map Prod.snd) ++ t.atoms :=
      generates_application arity callee (args.map Prod.fst)
    rw [List.map_map] at happlication
    exact happlication.bind fun body => generates_pure (hlast body)

theorem generates_methodSymbol (pos : Position) (name : String) :
    Generates texts pre (methodSymbol pos name) fun s => pre ++ [.symbol s] := by
  unfold methodSymbol
  split
  · exact generates_fail _ _
  · next s hs =>
    exact (generates_require (Symbol.mem_emitted_of_method hs)).bind fun _ => generates_same fun _ => Iff.rfl

/-! ## Lifted functions -/

/-- A computation that adds its result to the pending code, whatever is pending. -/
abbrev Adds (texts : List SourceText) (m : Gen α) (atoms : α → List Atom) : Prop :=
  ∀ pre, Generates texts pre m fun a => pre ++ atoms a

variable {ctx : Context}

theorem atoms_reference (vars : List String) (scope : Scope) (name : String) :
    (reference vars scope name).atoms = [.source (.name name)] := by
  unfold reference
  split
  · rfl
  · split <;> rfl

/-- Captured values are names of the program. -/
theorem absorbs_closure {name : Name} (hname : name.isLifted = true) {captures vars : List String}
    (hcaptures : ∀ x ∈ captures, .name x ∈ texts) (scope : Scope) :
    Absorbs texts [.symbol .applyPart, .lifted name]
      (Ty.closure name (captures.map (reference vars scope))).atoms := by
  have hvalues : ∀ atom ∈ atomsOfTys (captures.map (reference vars scope)), atom.Neutral texts := by
    induction captures with
    | nil => simp
    | cons x captures ih =>
      rw [List.forall_mem_cons] at hcaptures
      rw [List.map_cons, atomsOfTys, atoms_reference, List.forall_mem_append]
      exact ⟨List.forall_mem_singleton.2 (.inl hcaptures.1), ih hcaptures.2⟩
  have hatoms : (Ty.closure name (captures.map (reference vars scope))).atoms =
      [.symbol .applyPart, .lifted name] ++ atomsOfTys (captures.map (reference vars scope)) := by
    have hatoms : name.atoms = [.lifted name] := by
      cases name with
      | user text | temp id => cases hname
      | lambda id | arm id => rfl
    simp only [Ty.closure, Ty.applied, Ty.ofSymbol, Ty.atoms, atomsOfTys, hatoms, List.append_nil]
    rfl
  rw [hatoms]
  constructor
  · exact fun atom hatom => .inl (List.mem_append_left _ hatom)
  · exact fun atom hatom => (List.mem_append.1 hatom).imp_right (hvalues atom)

theorem adds_guarded {params : List Param} {bounds : Gen (List Ty)} {body : Gen Ty}
    (hbounds : Adds texts bounds atomsOfTys) (hbody : Adds texts body Ty.atoms) :
    Adds texts (guarded params bounds body) Ty.atoms := by
  have hargs (ns : List Nat) : atomsOfTys (ns.map fun i => Ty.arg (i + 1)) = [] := by
    induction ns with
    | nil => rfl
    | cons n ns ih => simpa using ih
  intro pre
  unfold guarded
  split
  · exact hbody pre
  · exact (hbounds pre).bind fun ts => (hbody _).bind fun t => generates_same fun _ => by simp [hargs, Ty.never]

theorem adds_liftLambda {params : List Param} {bounds : Context → Gen (List Ty)}
    {body : Context → Gen Ty} (hctx : ctx.Named texts) (hown : ∀ x ∈ params.map Param.name, .name x ∈ texts)
    (h : ∀ inner : Context, inner.Named texts →
      Adds texts (guarded params (bounds inner) (body inner)) Ty.atoms) :
    Adds texts (liftLambda ctx params bounds body) Ty.atoms := by
  intro pre
  refine (generates_require (by decide)).bind fun _ => (generates_require (by decide)).bind fun _ => ?_
  refine generates_patternVars_bind fun vars hvars => ?_
  have hcaptures : ∀ x ∈ ctx.scope.captures vars (params.map Param.name), .name x ∈ texts :=
    hctx.captures hvars
  have hinner := h _ (ctx.named_inside hcaptures hown none)
  refine (generates_withPatternVars (by simp) (hinner _)).bind fun code => ?_
  refine generates_freshId.bind fun id => ?_
  have hlift : Generates texts _ (addLifted (.lambda id) code) _ :=
    generates_addLifted (pre ++ [.symbol .applyPart]) rfl code
  refine (hlift.of_absorbs (absorbs_of_mem_iff fun atom => ?_)).bind fun _ => generates_pure ?_
  · simp only [Interface.atoms, List.mem_append, List.mem_cons]
    grind
  · rw [List.append_assoc]
    exact (absorbs_closure rfl hcaptures ctx.scope).append_left pre

/-- An arm takes for granted that the symbol for matching was noted. -/
theorem generates_liftArm {pattern result : Context → Gen Ty} (hctx : ctx.Named texts)
    (hpattern : ∀ inner : Context, inner.Named texts → Adds texts (pattern inner) Ty.atoms)
    (hresult : ∀ inner : Context, inner.Named texts → Adds texts (result inner) Ty.atoms)
    (hmatching : .symbol .matching ∈ pre) :
    Generates texts pre (liftArm ctx pattern result) fun t => pre ++ t.atoms := by
  refine (generates_require (by decide)).bind fun _ => (generates_require (by decide)).bind fun _ => ?_
  refine generates_patternVars_bind fun vars hvars => ?_
  refine (generates_withPatternVars hvars (hpattern (ctx.reading .shape) hctx _)).bind fun site => ?_
  have hcaptures : ∀ x ∈ ctx.scope.captures vars [], .name x ∈ texts := hctx.captures hvars
  have hinner := fun mode => ctx.named_inside hcaptures (List.forall_mem_nil _) mode
  refine Generates.bind (?_ : Generates texts _ _ fun parts : Ty × Ty =>
    pre ++ [.symbol .fn] ++ [.symbol .applyPart] ++ site.atoms ++ parts.1.atoms ++ parts.2.atoms) ?_
  · refine generates_withPatternVars (by simp) ?_
    refine (hpattern _ (hinner _) _).bind fun binder => (hresult _ (hinner _) _).bind fun body => ?_
    exact generates_same fun _ => Iff.rfl
  · rintro ⟨binder, body⟩
    refine generates_freshId.bind fun id => ?_
    have hlift : Generates texts _ (addLifted (.arm id) _) _ :=
      generates_addLifted (pre ++ site.atoms ++ [.symbol .applyPart]) rfl
        (.conditional (.arg 1) binder body .never)
    refine (hlift.of_absorbs (absorbs_of_mem_iff fun atom => ?_)).bind fun _ => generates_pure ?_
    · simp only [Interface.atoms, Ty.atoms, Ty.never, List.mem_append, List.mem_cons, List.not_mem_nil]
      grind
    · have hclosure : Absorbs texts _
          (Ty.closure (.arm id) ((ctx.scope.captures vars []).map (reference vars ctx.scope))).atoms :=
        absorbs_closure rfl hcaptures ctx.scope
      have hwith : (Atom.member "With").Neutral texts := by
        change "With" ∈ memberNames
        decide
      rw [Ty.atoms, Ty.atoms, atomsOfTys, atomsOfTys, atomsOfTys, List.append_nil]
      generalize (Ty.closure (.arm id) _).atoms = closed at *
      have hkept := hclosure.kept
      have hadded := hclosure.added
      exact absorbs_of_mem fun atom => by grind

theorem generates_readingAt (ctx : Context) (pos : Position) :
    Generates texts pre (readingAt ctx pos) fun _ => pre := by
  intro s mode s' hrun hs
  rw [(yields_readingAt.1 hrun).2]
  exact hs

theorem generates_patternVar (mode : PatternMode) (pos : Position) {name : String}
    (hname : .name name ∈ texts) (bound : Option Ty) :
    Generates texts (pre ++ atomsOfOption bound) (patternVar mode pos name bound)
      fun t => pre ++ t.atoms := by
  cases mode with
  | shape => exact generates_same fun _ => by cases bound <;> simp
  | binding =>
    intro s t s' hrun hs
    obtain ⟨-, rfl, rfl⟩ := yields_patternVar_binding.1 hrun
    have hvars : ∀ x ∈ s.patternVars ++ [name], .name x ∈ texts :=
      List.forall_mem_append.2 ⟨hs.patternVars, List.forall_mem_singleton.2 hname⟩
    have hneutral : (Atom.source (.name name)).Neutral texts := .inl hname
    exact (hs.withPatternVars hvars).absorb ((absorbs_cons hneutral).append_left pre)

/-! ## Expressions -/

theorem names_of_params {params : List Param} (h : textsOfParams params ⊆ texts) :
    ∀ x ∈ params.map Param.name, .name x ∈ texts := by
  induction params with
  | nil => simp
  | cons p ps ih =>
    obtain ⟨pos, name, bound⟩ := p
    rw [textsOfParams, List.cons_subset, List.append_subset] at h
    rw [List.map_cons, List.forall_mem_cons]
    exact ⟨h.1, ih h.2.2⟩

mutual

/-- **The code of an expression becomes pending.** -/
theorem adds_exprTy {ctx : Context} (hctx : ctx.Named texts) : ∀ e : Expr,
    e.texts ⊆ texts → Adds texts (exprTy ctx e) Ty.atoms
  | .assignment .., _ => by
    intro pre
    rw [exprTy]
    exact generates_fail _ _
  | .binary _ op lhs rhs, h => by
    intro pre
    rw [Expr.texts, List.append_subset] at h
    rw [exprTy]
    refine (adds_exprTy hctx lhs h.1 _).bind fun l => (adds_exprTy hctx rhs h.2 _).bind fun r => ?_
    rw [List.append_assoc]
    exact generates_binary op l r
  | .logical _ op lhs rhs, h => by
    intro pre
    rw [Expr.texts, List.append_subset] at h
    rw [exprTy]
    refine (adds_exprTy hctx lhs h.1 _).bind fun l => (adds_exprTy hctx rhs h.2 _).bind fun r => ?_
    have hcombine : Generates texts (pre ++ atomsOfTys [l, r]) (combine op.lowering [l, r])
        fun t => pre ++ t.atoms := generates_combine (Lowering.logical_mem_operators op) _
    simpa using hcombine
  | .unary _ op operand, h => by
    intro pre
    rw [Expr.texts] at h
    rw [exprTy]
    exact (adds_exprTy hctx operand h _).bind fun t => generates_unary op t
  | .conditional _ test consequent alternate, h => by
    intro pre
    rw [Expr.texts, List.append_subset, List.append_subset] at h
    rw [exprTy]
    refine (adds_exprTy hctx test h.1 _).bind fun t => (adds_exprTy hctx consequent h.2.1 _).bind fun c => ?_
    exact (adds_exprTy hctx alternate h.2.2 _).bind fun a => generates_same fun _ => by simp [conditional]
  | .call pos callee args, h => by
    intro pre
    rw [Expr.texts, List.append_subset] at h
    have hcallee := adds_exprTy hctx callee h.1
    by_cases hfield : ∃ p object method, callee = .field p object method
    · obtain ⟨p, object, method, rfl⟩ := hfield
      rw [exprTy] at hcallee
      rw [exprTy]
      refine (generates_methodSymbol pos method).bind fun x => ?_
      refine (hcallee _).of_map.bind fun o => (adds_exprTys hctx args h.2 _).bind fun ts => ?_
      have hmethod : (Atom.source (.quoted method)).Neutral texts := .inl (h.1 (by simp))
      refine generates_pure ?_
      simp only [Ty.applied, Ty.ofSymbol, Ty.atoms, atomsOfTys]
      exact absorbs_of_mem fun atom => by grind
    · rw [exprTy_call _ _ _ hfield]
      refine (adds_argTys hctx args h.2 _).bind fun ts => generates_patternVars_bind fun vars _ => ?_
      refine (hcallee _).bind fun c => ?_
      rw [List.append_assoc]
      exact generates_applyCall _ c ts
  | .field _ object name, h => by
    intro pre
    rw [Expr.texts, List.append_subset] at h
    rw [exprTy]
    have hname : (Atom.source (.quoted name)).Neutral texts := .inl (h.2 (by simp))
    refine (adds_exprTy hctx object h.1 _).bind fun t => generates_pure ?_
    rw [Ty.atoms, ← List.append_assoc]
    exact absorbs_concat hname
  | .index _ object key, h => by
    intro pre
    rw [Expr.texts, List.append_subset] at h
    rw [exprTy]
    refine (adds_exprTy hctx object h.1 _).bind fun t => (adds_exprTy hctx key h.2 _).bind fun k => ?_
    exact generates_same fun _ => by simp
  | .lambda _ params body, h => by
    rw [Expr.texts, List.append_subset] at h
    rw [exprTy]
    refine adds_liftLambda hctx (names_of_params h.1) fun inner hinner => ?_
    exact adds_guarded (adds_boundTys hinner params h.1) (adds_exprTy hinner body h.2)
  | .block pos body, h => by
    rw [Expr.texts] at h
    rw [exprTy]
    exact adds_blockTy hctx pos body h
  | .matching _ scrutinee arms, h => by
    intro pre
    rw [Expr.texts, List.append_subset] at h
    rw [exprTy]
    refine (generates_require (by decide)).bind fun _ => (generates_require (by decide)).bind fun _ => ?_
    refine (adds_exprTy hctx scrutinee h.1 _).bind fun t => ?_
    refine (generates_armTys hctx arms h.2 (by simp)).bind fun ts => generates_same fun atom => ?_
    simp only [Ty.applied, Ty.ofSymbol, Ty.atoms, atomsOfTys, List.mem_append, List.append_nil]
    grind
  | .template _ parts, h => by
    intro pre
    rw [Expr.texts] at h
    rw [exprTy]
    exact (generates_partTys hctx "" parts h).bind fun ps => generates_same fun _ => by simp
  | .object _ properties, h => by
    intro pre
    rw [Expr.texts] at h
    rw [exprTy]
    exact (adds_propertyTys hctx properties h _).bind fun ps => generates_same fun _ => by simp
  | .mapped _ key union none optional value, h => by
    intro pre
    rw [Expr.texts, List.cons_subset, List.append_subset, List.append_subset] at h
    have hkey : (Atom.source (.name key)).Neutral texts := .inl h.1
    rw [exprTy]
    refine (adds_exprTy hctx union h.2.1 _).bind fun u => ?_
    refine (adds_exprTy (hctx.bind h.1) value h.2.2.2 _).bind fun v => generates_pure ?_
    rw [List.append_assoc]
    exact (absorbs_cons hkey).append_left pre
  | .mapped _ key union (some renamed) optional value, h => by
    intro pre
    rw [Expr.texts, List.cons_subset, List.append_subset, List.append_subset] at h
    have hkey : (Atom.source (.name key)).Neutral texts := .inl h.1
    rw [exprTy]
    refine (adds_exprTy hctx union h.2.1 _).bind fun u => ?_
    refine (adds_exprTy (hctx.bind h.1) renamed h.2.2.1 _).bind fun r => ?_
    refine (adds_exprTy (hctx.bind h.1) value h.2.2.2 _).bind fun v => generates_pure ?_
    rw [List.append_assoc, List.append_assoc]
    exact (absorbs_cons hkey).append_left pre
  | .tuple _ elements, h => by
    intro pre
    rw [Expr.texts] at h
    rw [exprTy]
    exact (adds_exprTys hctx elements h _).bind fun ts => generates_same fun _ => by simp
  | .infer pos name none, h => by
    intro pre
    rw [Expr.texts, List.cons_subset] at h
    rw [exprTy]
    refine (generates_readingAt ctx pos).bind fun mode => ?_
    have hvar : Generates texts (pre ++ atomsOfOption none) (patternVar mode pos name none)
        fun t => pre ++ t.atoms := generates_patternVar mode pos h.1 none
    simpa using hvar
  | .infer pos name (some bound), h => by
    intro pre
    rw [Expr.texts, List.cons_subset] at h
    rw [exprTy]
    refine (generates_readingAt ctx pos).bind fun mode => ?_
    exact (adds_exprTy hctx bound h.2 _).bind fun t => generates_patternVar mode pos h.1 (some t)
  | .ident _ name, h => by
    intro pre
    rw [exprTy]
    refine generates_patternVars_bind fun vars _ => generates_pure ?_
    rw [atoms_reference]
    exact absorbs_concat (.inl (h (by simp)))
  | .number _ digits, h => by
    intro pre
    rw [exprTy]
    exact generates_pure (absorbs_concat (.inl (h (by simp))))
  | .string _ text, h => by
    intro pre
    rw [exprTy]
    exact generates_pure (absorbs_concat (.inl (h (by simp))))
  | .numberType _, _ | .stringType _, _ => by
    intro pre
    rw [exprTy]
    exact generates_same fun _ => by simp

theorem adds_exprTys {ctx : Context} (hctx : ctx.Named texts) : ∀ es : List Expr,
    textsOfExprs es ⊆ texts → Adds texts (exprTys ctx es) atomsOfTys
  | [], _ => by
    intro pre
    rw [exprTys]
    exact generates_same fun _ => by simp
  | e :: es, h => by
    intro pre
    rw [textsOfExprs, List.append_subset] at h
    rw [exprTys]
    refine (adds_exprTy hctx e h.1 _).bind fun t => (adds_exprTys hctx es h.2 _).bind fun ts => ?_
    exact generates_same fun _ => by simp

theorem adds_argTys {ctx : Context} (hctx : ctx.Named texts) : ∀ es : List Expr,
    textsOfExprs es ⊆ texts → Adds texts (argTys ctx es) fun args => atomsOfTys (args.map Prod.snd)
  | [], _ => by
    intro pre
    rw [argTys]
    exact generates_same fun _ => by simp
  | e :: es, h => by
    intro pre
    rw [textsOfExprs, List.append_subset] at h
    rw [argTys]
    refine generates_freshId.bind fun id => (adds_exprTy hctx e h.1 _).bind fun t => ?_
    exact (adds_argTys hctx es h.2 _).bind fun ts => generates_same fun _ => by simp

theorem adds_boundTys {ctx : Context} (hctx : ctx.Named texts) : ∀ params : List Param,
    textsOfParams params ⊆ texts → Adds texts (boundTys ctx params) atomsOfTys
  | [], _ => by
    intro pre
    rw [boundTys]
    exact generates_same fun _ => by simp
  | .mk _ _ none :: ps, h => by
    intro pre
    rw [textsOfParams, List.cons_subset, List.append_subset] at h
    rw [boundTys]
    exact (adds_boundTys hctx ps h.2.2 _).bind fun ts => generates_same fun _ => by simp
  | .mk _ _ (some bound) :: ps, h => by
    intro pre
    rw [textsOfParams, List.cons_subset, List.append_subset] at h
    rw [boundTys]
    refine (adds_exprTy hctx bound h.2.1 _).bind fun t => (adds_boundTys hctx ps h.2.2 _).bind fun ts => ?_
    exact generates_same fun _ => by simp

theorem adds_blockTy {ctx : Context} (hctx : ctx.Named texts) (pos : Position) : ∀ body : List Stmt,
    textsOfStmts body ⊆ texts → Adds texts (blockTy ctx pos body) Ty.atoms
  | [], _ => by
    intro pre
    rw [blockTy]
    exact generates_fail _ _
  | [.expr _ value], h => by
    rw [textsOfStmts, List.append_subset] at h
    rw [blockTy]
    exact adds_exprTy hctx value h.1
  | .expr p _ :: _ :: _, _ => by
    intro pre
    rw [blockTy]
    · exact generates_fail _ _
    · simp
  | .assertEqual p _ _ :: _, _ => by
    intro pre
    rw [blockTy]
    exact generates_fail _ _
  | [.letDecl p _ _], _ => by
    intro pre
    rw [blockTy]
    exact generates_fail _ _
  | .letDecl _ name value :: s :: rest, h => by
    intro pre
    rw [textsOfStmts, List.cons_subset, List.append_subset] at h
    have hname : (Atom.source (.name name)).Neutral texts := .inl h.1
    rw [blockTy]
    · refine (adds_exprTy hctx value h.2.1 _).bind fun v => ?_
      refine (adds_blockTy (hctx.bind h.1) pos (s :: rest) h.2.2 _).bind fun b => generates_pure ?_
      simp only [Ty.bindExactly, Ty.bind, Ty.never, Ty.atoms, atomsOfOption, Name.atoms]
      exact absorbs_of_mem fun atom => by grind
    · simp

theorem generates_armTys {ctx : Context} (hctx : ctx.Named texts) {pre : List Atom} : ∀ arms : List Arm,
    textsOfArms arms ⊆ texts → .symbol .matching ∈ pre →
      Generates texts pre (armTys ctx arms) fun ts => pre ++ atomsOfTys ts
  | [], _, _ => by
    rw [armTys]
    exact generates_same fun _ => by simp
  | .mk _ pattern result :: as, h, hmatching => by
    rw [textsOfArms, List.append_subset, List.append_subset] at h
    rw [armTys]
    have harm : Generates texts pre _ fun t : Ty => pre ++ t.atoms := generates_liftArm hctx
      (fun inner hinner => adds_exprTy hinner pattern h.1)
      (fun inner hinner => adds_exprTy hinner result h.2.1) hmatching
    refine harm.bind fun t => ?_
    refine (generates_armTys hctx as h.2.2 (List.mem_append_left _ hmatching)).bind fun ts => ?_
    exact generates_same fun _ => by simp

theorem generates_partTys {ctx : Context} (hctx : ctx.Named texts) {pre : List Atom} (front : String) :
    ∀ parts : List Part, textsOfParts front parts ⊆ texts →
      Generates texts pre (partTys ctx parts) fun ps => pre ++ atomsOfPieces front ps
  | [], h => by
    rw [partTys]
    exact generates_pure (absorbs_concat (.inl (h (by simp))))
  | .text text :: ps, h => by
    rw [textsOfParts] at h
    rw [partTys]
    exact (generates_partTys hctx (front ++ text) ps h).bind fun ts => generates_same fun _ => by simp
  | .expr value :: ps, h => by
    rw [textsOfParts, List.cons_subset, List.append_subset] at h
    have hfront : (Atom.source (.chunk front)).Neutral texts := .inl h.1
    rw [partTys]
    refine (adds_exprTy hctx value h.2.1 _).bind fun t => ?_
    refine (generates_partTys hctx "" ps h.2.2).bind fun ts => generates_pure ?_
    rw [List.append_assoc]
    exact (absorbs_cons hfront).append_left pre

theorem adds_propertyTys {ctx : Context} (hctx : ctx.Named texts) : ∀ properties : List Property,
    textsOfProperties properties ⊆ texts → Adds texts (propertyTys ctx properties) atomsOfFields
  | [], _ => by
    intro pre
    rw [propertyTys]
    exact generates_same fun _ => by simp
  | .named _ name _ value :: ps, h => by
    intro pre
    rw [textsOfProperties, List.cons_subset, List.append_subset] at h
    have hname : (Atom.source (.quoted name)).Neutral texts := .inl h.1
    rw [propertyTys]
    refine (adds_exprTy hctx value h.2.1 _).bind fun t => (adds_propertyTys hctx ps h.2.2 _).bind fun ts => ?_
    refine generates_pure ?_
    rw [List.append_assoc]
    exact (absorbs_cons hname).append_left pre
  | .computed _ key _ value :: ps, h => by
    intro pre
    rw [textsOfProperties, List.append_subset, List.append_subset] at h
    rw [propertyTys]
    refine (adds_exprTy hctx key h.1 _).bind fun k => (adds_exprTy hctx value h.2.1 _).bind fun t => ?_
    exact (adds_propertyTys hctx ps h.2.2 _).bind fun ts => generates_same fun _ => by simp

end

/-! ## Programs -/

theorem adds_definition {ctx : Context} (hctx : ctx.Named texts) {d : Definition}
    (h : (TopLevel.definition d).texts ⊆ texts) : Adds texts (definition ctx d) Declaration.atoms := by
  rw [TopLevel.texts, List.cons_subset, List.append_subset] at h
  have hname : (Atom.source (.name d.name)).Neutral texts := .inl h.1
  have hvalue : Adds texts (definitionTy ctx d) Ty.atoms := by
    unfold definitionTy
    split
    · exact adds_exprTy hctx d.body h.2.2
    · refine adds_liftLambda hctx (names_of_params h.2.1) fun inner hinner => ?_
      exact adds_guarded (adds_boundTys hinner d.params h.2.1) (adds_exprTy hinner d.body h.2.2)
  intro pre
  exact (hvalue pre).bind fun t => generates_pure ((absorbs_cons hname).append_left pre)

theorem adds_sectionStmt {ctx : Context} (hctx : ctx.Named texts) {stmt : Stmt}
    (h : textsOfStmts [stmt] ⊆ texts) : Adds texts (sectionStmt ctx stmt) Alias.atoms := by
  intro pre
  cases stmt with
  | letDecl pos name value =>
    rw [textsOfStmts, List.cons_subset, List.append_subset] at h
    have hname : (Atom.source (.name name)).Neutral texts := .inl h.1
    refine (adds_exprTy hctx value h.2.1 _).bind fun t => ?_
    exact generates_pure ((absorbs_cons hname).append_left pre)
  | assertEqual pos left right =>
    rw [textsOfStmts, List.append_subset, List.append_subset] at h
    refine (generates_require (by decide)).bind fun _ => (generates_require (by decide)).bind fun _ => ?_
    refine (generates_require (by decide)).bind fun _ => (adds_exprTy hctx left h.1 _).bind fun l => ?_
    refine (adds_exprTy hctx right h.2.1 _).bind fun r => generates_freshId.bind fun id => ?_
    have hequals : (Atom.member "Equals").Neutral texts := by
      change "Equals" ∈ memberNames
      decide
    refine generates_pure ?_
    simp only [Alias.atoms, Ty.applied, Ty.ofSymbol, Ty.atoms, atomsOfTys, Name.atoms]
    exact absorbs_of_mem fun atom => by grind
  | expr pos value =>
    rw [textsOfStmts, List.append_subset] at h
    refine (adds_exprTy hctx value h.1 _).bind fun t => generates_freshId.bind fun id => ?_
    exact generates_same fun _ => by simp [Alias.atoms]

theorem adds_sectionStmts {ctx : Context} (hctx : ctx.Named texts) {stmts : List Stmt}
    (h : textsOfStmts stmts ⊆ texts) :
    Adds texts (sectionStmts ctx stmts) fun as => as.flatMap Alias.atoms := by
  induction stmts with
  | nil => exact fun pre => generates_same fun _ => by simp
  | cons stmt stmts ih =>
    intro pre
    rw [itemwise_stmts.cons, List.append_subset] at h
    exact (adds_sectionStmt hctx h.1 _).bind fun a => (ih h.2 _).bind fun as => generates_same fun _ => by simp

theorem adds_topLevel {ctx : Context} (hctx : ctx.Named texts) {item : TopLevel} (h : item.texts ⊆ texts) :
    Adds texts (topLevel ctx item) Declaration.atoms := by
  cases item with
  | definition d => exact adds_definition hctx h
  | sectionOf s =>
    intro pre
    rw [TopLevel.texts, List.cons_subset] at h
    have hname : (Atom.source (.name s.name)).Neutral texts := .inl h.1
    refine (adds_sectionStmts hctx h.2 _).bind fun as => generates_pure ?_
    simp only [Declaration.atoms]
    exact absorbs_of_mem fun atom => by grind
  | importOf i =>
    intro pre
    have hatoms : ∀ atom ∈ (Declaration.importOf i.symbols i.source).atoms, atom.Neutral texts := by
      intro atom hatom
      rcases List.mem_append.1 hatom with hatom | hatom
      · obtain ⟨x, hx, rfl⟩ := List.mem_map.1 hatom
        exact .inl (h (List.mem_append_left _ (List.mem_map_of_mem hx)))
      · rw [List.mem_singleton.1 hatom]
        exact .inl (h (List.mem_append_right _ (List.mem_singleton_self _)))
    refine generates_pure ⟨fun atom hatom => .inl (List.mem_append_left _ hatom), fun atom hatom => ?_⟩
    exact (List.mem_append.1 hatom).imp_right (hatoms atom)

theorem adds_topLevels {ctx : Context} (hctx : ctx.Named texts) {items : List TopLevel}
    (h : items.flatMap TopLevel.texts ⊆ texts) :
    Adds texts (topLevels ctx items) fun ds => ds.flatMap Declaration.atoms := by
  induction items with
  | nil => exact fun pre => generates_same fun _ => by simp
  | cons item items ih =>
    intro pre
    rw [List.flatMap_cons, List.append_subset] at h
    exact (adds_topLevel hctx h.1 _).bind fun d => (ih h.2 _).bind fun ds => generates_same fun _ => by simp

end Gen

theorem GenState.tally_initial : GenState.initial.Tally texts [] where
  imports := by simp [initial]
  nodup := List.nodup_nil
  present := by simp
  ordered := by simp [initial]
  used := by simp [initial]
  pending := by simp
  lifted := by simp [initial]
  patternVars := by simp [initial]

/-- **The code of a program accounts for the symbols and functions that came up with it.** -/
theorem tally_of_generate {program : Program} {m : Module} (h : program.generate = .ok m) :
    ∃ s : GenState, (Gen.topLevels program.context program.body).Yields GenState.initial m.items s ∧
      m.imports = s.imports ∧ m.lifted = s.lifted ∧
      s.Tally program.texts (m.items.flatMap Declaration.atoms) := by
  unfold Program.generate at h
  split at h
  · next items s hrun =>
    cases h
    have hctx : program.context.Named program.texts := fun x hx =>
      absurd (Scope.resolve_eq_unbound_iff.2 ⟨List.not_mem_nil, List.not_mem_nil, List.not_mem_nil⟩) hx
    have htally := Gen.adds_topLevels hctx (List.Subset.refl _) [] hrun GenState.tally_initial
    exact ⟨s, hrun, rfl, rfl, htally⟩
  · cases h

section

variable {program : Program} {m : Module} (h : program.generate = .ok m)

include h

/-- **The imports of a program are the library symbols of its code.** -/
theorem mem_imports_iff (x : Symbol) : x ∈ m.imports ↔ .symbol x ∈ m.atoms := by
  obtain ⟨s, -, himports, hlifted, htally⟩ := tally_of_generate h
  rw [himports, htally.imports, Module.atoms, hlifted, List.mem_append, or_comm]
  simp

/-- A lifted function is mentioned by code, so its name is one of a lifted function. -/
theorem isLifted_of_mem_lifted {f : Interface} (hf : f ∈ m.lifted) : f.name.isLifted = true := by
  obtain ⟨s, -, -, hlifted, htally⟩ := tally_of_generate h
  rw [hlifted] at hf
  obtain ⟨before, after, hsplit⟩ := List.append_of_mem hf
  rcases htally.used before f after hsplit with hpending | ⟨g, hg, hname⟩
  · exact htally.pending _ hpending
  · exact htally.lifted g (by simp [hsplit, hg]) _ hname

theorem known_of_mem_atoms {atom : Atom} (hatom : atom ∈ m.atoms) : atom.Known program.texts := by
  obtain ⟨s, -, -, hlifted, htally⟩ := tally_of_generate h
  rcases List.mem_append.1 hatom with hatom | hatom
  · obtain ⟨f, hf, hatom⟩ := List.mem_flatMap.1 hatom
    rcases List.mem_cons.1 hatom with rfl | hatom
    · exact isLifted_of_mem_lifted h hf
    · exact htally.lifted f (hlifted ▸ hf) atom hatom
  · exact htally.pending atom hatom

end

end TypeForge
