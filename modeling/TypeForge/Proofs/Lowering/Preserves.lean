import Mathlib.Algebra.Group.Int.Defs
import TypeForge.Proofs.Generate.Runs
import TypeForge.Proofs.Scope
import TypeForge.Proofs.Lowering.Operators
import TypeForge.Proofs.Lowering.Semantics

/-!
# Lowering preserves meaning

The code of an expression stands for the value of the expression.  An operand is evaluated
behind the binders of the operands in front of it, so what is shown of a piece of code is that
it has its value wherever the names of the source are bound as they were, whatever else is
bound to generated names.  Such names only have to be told apart within one operator.
-/

namespace TypeForge

open TypeScript

/-! ## Generated names -/

theorem TypeScript.Name.render_temp_inj {id id' : Nat} :
    (Name.temp id).render = (Name.temp id').render ↔ id = id' := by
  constructor
  · intro h
    have hdigits : Nat.toDigits 10 id = Nat.toDigits 10 id' := by
      have hlist := congrArg String.toList h
      simpa [Name.render] using hlist
    rw [← Nat.ofDigitChars_toDigits (b := 10) (n := id) (by decide) (by decide), hdigits,
      Nat.ofDigitChars_toDigits (by decide) (by decide)]
  · rintro rfl
    rfl

namespace Gen

variable {α β : Type} {m : Gen α} {f : α → Gen β} {vars : List String} {P : α → Prop}
  {Q : β → Prop}

/-- Among the pattern variables `vars`, which it leaves alone, `m` succeeds with a result that
satisfies `P`. -/
def Delivers (vars : List String) (P : α → Prop) (m : Gen α) : Prop :=
  ∀ ⦃s : GenState⦄, s.patternVars = vars →
    ∃ a s', m.Yields s a s' ∧ s'.patternVars = vars ∧ P a

theorem delivers_pure {a : α} (h : P a) : Delivers vars P (pure a : Gen α) := by
  intro s hs
  exact ⟨a, s, yields_pure.2 ⟨rfl, rfl⟩, hs, h⟩

theorem Delivers.bind (hm : Delivers vars P m) (hf : ∀ a, P a → Delivers vars Q (f a)) :
    Delivers vars Q (m >>= f) := by
  intro s hs
  obtain ⟨a, t, ha, ht, hP⟩ := hm hs
  obtain ⟨b, s', hb, hs', hQ⟩ := hf a hP ht
  exact ⟨b, s', yields_bind.2 ⟨a, t, ha, hb⟩, hs', hQ⟩

theorem Delivers.imp {P' : α → Prop} (hm : Delivers vars P m) (h : ∀ a, P a → P' a) :
    Delivers vars P' m := by
  intro s hs
  obtain ⟨a, s', ha, hs', hP⟩ := hm hs
  exact ⟨a, s', ha, hs', h a hP⟩

theorem delivers_patternVars : Delivers vars (· = vars) patternVars := by
  intro s hs
  exact ⟨_, s, yields_patternVars.2 ⟨rfl, rfl⟩, hs, hs⟩

theorem delivers_require (symbol : Symbol) : Delivers vars (fun _ => True) (require symbol) := by
  intro s hs
  exact ⟨(), _, yields_modify.2 rfl, hs, trivial⟩

theorem delivers_freshId : Delivers vars (fun _ => True) freshId := by
  intro s hs
  exact ⟨_, _, yields_freshId.2 ⟨rfl, rfl⟩, hs, trivial⟩

/-- Fresh ids are counted upwards. -/
theorem yields_freshIds (bs : List β) (s : GenState) :
    (freshIds bs).Yields s (List.range' s.nextId bs.length)
      { s with nextId := s.nextId + bs.length } := by
  induction bs generalizing s with
  | nil => exact yields_pure.2 ⟨rfl, rfl⟩
  | cons b bs ih =>
    refine yields_bind.2 ⟨_, _, yields_freshId.2 ⟨rfl, rfl⟩, ?_⟩
    refine yields_bind.2 ⟨_, _, ih _, ?_⟩
    rw [yields_pure, List.length_cons, List.range'_succ]
    exact ⟨rfl, by rw [Nat.add_comm bs.length, ← Nat.add_assoc]⟩

theorem delivers_freshIds (bs : List β) :
    Delivers vars (fun ids => ids.length = bs.length ∧ ids.Nodup) (freshIds bs) := by
  intro s hs
  exact ⟨_, _, yields_freshIds bs s, hs, by simp, List.nodup_range'⟩

/-- The operands of a combinator are bound to different names. -/
theorem delivers_combine (c : Combinator) (operands : List Ty) :
    Delivers vars (fun t => ∃ ids : List Nat, ids.length = operands.length ∧ ids.Nodup ∧
      t = .paren (bindOperands (operandBound c.isNumeric) (ids.zip operands)
        (combinatorResult c ids))) (combine c operands) := by
  refine (delivers_require _).bind fun _ _ => (delivers_freshIds operands).bind fun ids hids => ?_
  by_cases h : c.application = .direct
  · simp only [h, ne_eq, not_true, if_false]
    exact delivers_pure ⟨ids, hids.1, hids.2, rfl⟩
  · simp only [h, ne_eq, not_false_eq_true, if_true]
    exact (delivers_require _).bind fun _ _ => delivers_pure ⟨ids, hids.1, hids.2, rfl⟩

end Gen

namespace Lowering

open Gen

/-! ## The libraries -/

/-- A name that a let may have: neither that of a library symbol nor a generated one. -/
structure IsPlain (name : String) : Prop where
  ne_symbol : ∀ symbol ∈ operatorSymbols, symbol.name ≠ name
  ne_temp : ∀ id, (Name.temp id).render ≠ name

theorem render_temp_ne_symbol {symbol : Symbol} (h : symbol ∈ operatorSymbols) (id : Nat) :
    (Name.temp id).render ≠ symbol.name := by
  have hplain : ∀ symbol ∈ operatorSymbols, '_' ∉ symbol.name.toList := by decide
  intro heq
  apply hplain symbol h
  rw [← heq]
  simp [Name.render]

/-- A combinator is applied at once if it is a symbol itself, and called if it is a member of
one. -/
theorem operators_application : ∀ c ∈ operators,
    c.symbol ≠ .call ∧ (c.application = .direct ↔ c.member = none) := by decide

variable {A : Arithmetic}

/-- What the result of a combinator stands for: a bit stands for a truth value. -/
def outcome (A : Arithmetic) (c : Combinator) (r : Value A.Num) : Value A.Num :=
  if c.yieldsBit then .truth (decide (r = .number (A.literal "1"))) else r

theorem outcome_bit {name : String} (b : Bool) :
    outcome A (.comparison name) (bit A b) = .truth b := by
  have h := A.zero_ne_one
  cases b <;> simp [outcome, Combinator.comparison, bit, h]

/-- A combinator that computes the value `v` of an operator at the values `vs`. -/
structure Computes (A : Arithmetic) (c : Combinator) (vs : List (Value A.Num)) (v : Value A.Num) :
    Prop where
  mem_operators : c ∈ operators
  library_eq : ∃ r, A.library c.symbol c.member vs = some r ∧ outcome A c r = v
  isNumber : c.isNumeric = true → ∀ x ∈ vs, x.isNumber = true

theorem computes_arithmetic {name : String} {vs : List (Value A.Num)} {v : Value A.Num}
    (hmem : .arithmetic name ∈ operators) (hvs : ∀ x ∈ vs, x.isNumber = true)
    (h : A.library ⟨.math, name⟩ none vs = some v) : Computes A (.arithmetic name) vs v :=
  ⟨hmem, ⟨v, h, rfl⟩, fun _ => hvs⟩

theorem computes_comparison {name : String} {vs : List (Value A.Num)} {b : Bool}
    (hmem : .comparison name ∈ operators) (hvs : ∀ x ∈ vs, x.isNumber = true)
    (h : A.library ⟨.math, name⟩ none vs = some (bit A b)) :
    Computes A (.comparison name) vs (.truth b) :=
  ⟨hmem, ⟨_, h, outcome_bit b⟩, fun _ => hvs⟩

theorem computes_booleans {member : String} {application : Application} {vs : List (Value A.Num)}
    {v : Value A.Num} (hmem : .booleans member application ∈ operators)
    (h : A.library .booleans (some member) vs = some v) :
    Computes A (.booleans member application) vs v :=
  ⟨hmem, ⟨v, h, rfl⟩, nofun⟩

/-- A binary operator is the operation that its combinator is named for. -/
theorem computes_binary {op : BinaryOp} {a b v : Value A.Num} (h : binary? A op a b = some v) :
    ∃ c, op.lowering = .combinator c ∧ Computes A c [a, b] v := by
  unfold binary? at h
  split at h
  case h_1 | h_2 | h_3 | h_4 | h_5 | h_6 =>
    exact ⟨_, rfl, computes_arithmetic (by decide) (by simp [Value.isNumber]) h⟩
  case h_7 | h_8 | h_9 | h_10 =>
    obtain rfl := Option.some.inj h
    exact ⟨_, rfl, computes_comparison (by decide) (by simp [Value.isNumber]) rfl⟩
  case h_11 =>
    exact ⟨_, rfl, computes_booleans (by decide) h⟩
  case h_12 =>
    exact ⟨_, rfl, by decide, ⟨v, h, rfl⟩, nofun⟩
  case h_13 => cases h

/-- A logical operator is the operation that its combinator is named for. -/
theorem computes_logical {op : LogicalOp} {a b v : Value A.Num} (h : logical? A op a b = some v) :
    Computes A op.lowering [a, b] v := by
  unfold logical? at h
  split at h
  case h_1 | h_2 =>
    exact computes_booleans (by decide) h
  case h_3 => cases h

/-- A unary operator is the operation that its combinator is named for, if it has one. -/
theorem computes_unary {op : UnaryOp} {a v : Value A.Num} (h : unary? A op a = some v) :
    (∃ c, op.lowering = .combinator c ∧ Computes A c [a] v) ∨
      op.lowering = .identity ∧ a.isNumber = true ∧ v = a := by
  unfold unary? at h
  split at h
  case h_1 =>
    exact .inl ⟨_, rfl, computes_arithmetic (by decide) (by simp [Value.isNumber]) h⟩
  case h_2 => exact .inr ⟨rfl, rfl, (Option.some.inj h).symm⟩
  case h_3 =>
    exact .inl ⟨_, rfl, computes_booleans (by decide) h⟩
  case h_4 => cases h

/-! ## Environments -/

/-- A name that is not bound and has a value is that of a truth value. -/
theorem Env.mem_truths {env : Env A.Num} {name : String} (hlookup : env.lookup name = none)
    (h : (env.value? name).isSome = true) : name ∈ ["true", "false"] := by
  rw [Env.value?, hlookup] at h
  by_cases htrue : name = "true"
  · simp [htrue]
  · by_cases hfalse : name = "false"
    · simp [hfalse]
    · simp [htrue, hfalse] at h

/-- In the code, the names of the source are bound as they are there, and all others that are
bound are generated. -/
structure Simulates (env tenv : Env A.Num) : Prop where
  lookup_eq : ∀ name, (∀ id, (Name.temp id).render ≠ name) → tenv.lookup name = env.lookup name
  isPlain : ∀ name, (env.lookup name).isSome = true → IsPlain name

namespace Simulates

variable {env tenv : Env A.Num}

theorem nil : Simulates ([] : Env A.Num) [] := ⟨fun _ _ => rfl, fun _ h => by simp at h⟩

/-- Binding a generated name changes nothing. -/
theorem temp (h : Simulates env tenv) (id : Nat) (v : Value A.Num) :
    Simulates env (((Name.temp id).render, v) :: tenv) where
  lookup_eq name hname := by
    rw [List.lookup_cons, beq_eq_false_iff_ne.2 (hname id).symm]
    exact h.lookup_eq name hname
  isPlain := h.isPlain

/-- Binding a name of the source does the same on both sides. -/
theorem bind (h : Simulates env tenv) {name : String} (hname : IsPlain name) (v : Value A.Num) :
    Simulates ((name, v) :: env) ((name, v) :: tenv) where
  lookup_eq other hother := by
    rw [List.lookup_cons, List.lookup_cons, h.lookup_eq other hother]
  isPlain other hother := by
    by_cases heq : other = name
    · exact heq ▸ hname
    · rw [List.lookup_cons, beq_eq_false_iff_ne.2 heq] at hother
      exact h.isPlain other hother

/-- A library symbol is never bound. -/
theorem lookup_symbol (h : Simulates env tenv) {symbol : Symbol}
    (hsymbol : symbol ∈ operatorSymbols) : tenv.lookup symbol.name = none := by
  rw [h.lookup_eq _ fun id => render_temp_ne_symbol hsymbol id]
  cases hlookup : env.lookup symbol.name with
  | none => rfl
  | some v => exact absurd rfl ((h.isPlain _ (by rw [hlookup]; rfl)).ne_symbol symbol hsymbol)

/-- A name of the source stands for the same in the code. -/
theorem value?_eq (h : Simulates env tenv) {name : String} {v : Value A.Num}
    (hv : env.value? name = some v) : tenv.value? name = some v := by
  have hname : ∀ id, (Name.temp id).render ≠ name := by
    cases hlookup : env.lookup name with
    | some w => exact (h.isPlain name (by rw [hlookup]; rfl)).ne_temp
    | none =>
      -- The names of the truth values have no underscore.
      have htruth := Env.mem_truths hlookup (by rw [hv]; rfl)
      rintro id rfl
      have hmem : '_' ∈ (Name.temp id).render.toList := by simp [Name.render]
      simp only [List.mem_cons, List.not_mem_nil, or_false] at htruth
      rcases htruth with heq | heq <;> simp [heq] at hmem
  unfold Env.value? at hv ⊢
  rw [h.lookup_eq name hname]
  exact hv

end Simulates

/-- The names that have a value are emitted as they are. -/
def Bare (vars : List String) (scope : Scope) (env : Env A.Num) : Prop :=
  ∀ name, (env.value? name).isSome = true → reference vars scope name = .name (.user name)

/-- A name that is bound by a let is emitted as it is. -/
theorem Bare.bind {vars : List String} {scope : Scope} {env : Env A.Num}
    (h : Bare vars scope env) (name : String) (v : Value A.Num) :
    Bare vars (scope.bind name) ((name, v) :: env) := by
  intro other hother
  by_cases heq : other = name
  · subst heq
    simp [reference, Scope.resolve_bind_self]
  · have hlookup : Env.value? ((name, v) :: env) other = env.value? other := by
      rw [Env.value?, List.lookup_cons, beq_eq_false_iff_ne.2 heq]
      rfl
    rw [hlookup] at hother
    have hbare := h other hother
    rwa [reference, Scope.resolve_bind_of_ne heq]

/-! ## Code that stands for a value -/

variable (lib : Libraries A.Num)

/-- The code `t` stands for `v` wherever the names of the source are bound as in `env`. -/
def Denotes (env : Env A.Num) (t : Ty) (v : Value A.Num) : Prop :=
  ∀ tenv, Simulates env tenv → meaning? A lib tenv t = some (.value v)

/-- The ids stand for the values. -/
def Holds (tenv : Env A.Num) (ids : List Nat) (vs : List (Value A.Num)) : Prop :=
  ids.map (fun id => tenv.lookup (Name.temp id).render) = vs.map some

variable {lib}

theorem Holds.temp {tenv : Env A.Num} {ids : List Nat} {vs : List (Value A.Num)}
    (h : Holds tenv ids vs) {id : Nat} (hid : id ∉ ids) (v : Value A.Num) :
    Holds (((Name.temp id).render, v) :: tenv) (ids ++ [id]) (vs ++ [v]) := by
  unfold Holds at h ⊢
  rw [List.map_append, List.map_append, ← h]
  congr 1
  · apply List.map_congr_left
    intro other hother
    have hne : (Name.temp other).render ≠ (Name.temp id).render := by
      intro heq
      exact hid (Name.render_temp_inj.1 heq ▸ hother)
    rw [List.lookup_cons, beq_eq_false_iff_ne.2 hne]
  · simp

theorem meanings_temps {tenv : Env A.Num} {ids : List Nat} {vs : List (Value A.Num)}
    (h : Holds tenv ids vs) :
    meanings? A lib tenv (ids.map fun id => .name (.temp id)) = some (vs.map .value) := by
  induction ids generalizing vs with
  | nil =>
    cases vs with
    | nil => rfl
    | cons v vs => simp [Holds] at h
  | cons id ids ih =>
    cases vs with
    | nil => simp [Holds] at h
    | cons v vs =>
      obtain ⟨hid, hids⟩ : tenv.lookup (Name.temp id).render = some v ∧ Holds tenv ids vs := by
        simpa [Holds] using h
      simp [meanings?, meaning?, Env.value?, hid, ih hids]

theorem values?_map_value {Num : Type} (vs : List (Value Num)) :
    Meaning.values? (vs.map .value) = some vs := by
  induction vs with
  | nil => rfl
  | cons v vs ih => simp [Meaning.values?, Meaning.value?, ih]

/-- A combinator that is applied to names stands for what the library computes. -/
theorem meaning_combinatorCall {env tenv : Env A.Num} (henv : Simulates env tenv) {c : Combinator}
    (hc : c ∈ operators) {ids : List Nat} {vs : List (Value A.Num)} (h : Holds tenv ids vs) :
    meaning? A lib tenv (combinatorCall c (ids.map fun id => .name (.temp id))) =
      (lib c.symbol c.member vs).map .value := by
  have hcall := henv.lookup_symbol (List.mem_cons_self : Symbol.call ∈ operatorSymbols)
  have hsymbol := henv.lookup_symbol (List.mem_cons_of_mem _ (List.mem_map_of_mem hc))
  have htemps : meanings? A lib tenv (ids.map fun id => .name (.temp id)) = some (vs.map .value) :=
    meanings_temps h
  obtain ⟨hne, hdirect⟩ := operators_application c hc
  obtain ⟨symbol, member, application, isNumeric, yieldsBit⟩ := c
  simp only at hne hdirect hsymbol
  unfold combinatorCall
  cases application with
  | direct =>
    obtain rfl := hdirect.1 rfl
    cases hr : lib symbol none vs <;>
      simp [meaning?, hsymbol, htemps, Meaning.apply, hne, values?_map_value, hr]
  | deferred =>
    obtain ⟨member, rfl⟩ := Option.ne_none_iff_exists'.1 fun h => nomatch hdirect.2 h
    cases hr : lib symbol (some member) vs <;>
      simp [Ty.applied, Ty.ofSymbol, meaning?, meanings?, hsymbol, hcall, htemps, Meaning.apply,
        values?_map_value, hr]
  | curried =>
    obtain ⟨member, rfl⟩ := Option.ne_none_iff_exists'.1 fun h => nomatch hdirect.2 h
    cases hr : lib symbol (some member) vs <;>
      simp [Ty.applied, Ty.ofSymbol, meaning?, meanings?, hsymbol, hcall, htemps, Meaning.apply,
        values?_map_value, Meaning.values?, hr]

/-- A combinator that is applied to names stands for the value it computes. -/
theorem meaning_combinatorResult (hlib : lib.Faithful) {env tenv : Env A.Num}
    (henv : Simulates env tenv) {c : Combinator} {vs : List (Value A.Num)} {v : Value A.Num}
    (hc : Computes A c vs v) {ids : List Nat} (h : Holds tenv ids vs) :
    meaning? A lib tenv (combinatorResult c ids) = some (.value v) := by
  obtain ⟨r, hr, rfl⟩ := hc.library_eq
  have hcall : meaning? A lib tenv (combinatorCall c (ids.map fun id => .name (.temp id))) =
      some (.value r) := by
    rw [meaning_combinatorCall henv hc.mem_operators h, hlib _ _ _ _ hr, Option.map_some]
  unfold combinatorResult outcome
  cases c.yieldsBit with
  | false => simp [hcall]
  | true =>
    by_cases hone : r = .number (A.literal "1")
    · simp [truthOfBit, meaning?, hcall, Meaning.value?, hone]
    · simp [truthOfBit, meaning?, hcall, Meaning.value?, hone]

/-- A value that is a number if it has to be passes the bound of an operand. -/
theorem meaning_bind_operand {tenv : Env A.Num} {t body : Ty} {v : Value A.Num} {id : Nat}
    {isNumeric : Bool} (ht : meaning? A lib tenv t = some (.value v))
    (hv : isNumeric = true → v.isNumber = true) :
    meaning? A lib tenv (.bind (.temp id) t (operandBound isNumeric) body) =
      meaning? A lib (((Name.temp id).render, v) :: tenv) body := by
  cases isNumeric with
  | false => simp [Ty.bind, operandBound, meaning?, ht, Meaning.value?]
  | true => simp [Ty.bind, operandBound, meaning?, ht, Meaning.value?, hv rfl]

/-- Behind the binders of operands, their ids stand for their values. -/
theorem meaning_bindOperands {env : Env A.Num} {isNumeric : Bool} {body : Ty} {r : Meaning A.Num}
    {tenv : Env A.Num} (henv : Simulates env tenv) {done ids : List Nat}
    {held : List (Value A.Num)} (hdone : Holds tenv done held) (hnodup : (done ++ ids).Nodup)
    {operands : List (Ty × Value A.Num)} (hlength : ids.length = operands.length)
    (hoperands : ∀ p ∈ operands, Denotes lib env p.1 p.2)
    (hnumeric : isNumeric = true → ∀ p ∈ operands, p.2.isNumber = true)
    (hbody : ∀ tenv, Simulates env tenv → Holds tenv (done ++ ids) (held ++ operands.map Prod.snd) →
      meaning? A lib tenv body = some r) :
    meaning? A lib tenv
      (bindOperands (operandBound isNumeric) (ids.zip (operands.map Prod.fst)) body) = some r := by
  -- The induction goes along the operands; `done` are the ids that are bound already.
  induction operands generalizing ids done held tenv with
  | nil =>
    obtain rfl := List.length_eq_zero_iff.1 hlength
    rw [List.append_nil] at hbody
    simpa [bindOperands, meaning?] using hbody tenv henv (by simpa using hdone)
  | cons p operands ih =>
    obtain ⟨t, v⟩ := p
    cases ids with
    | nil => cases hlength
    | cons id ids =>
      have hid : id ∉ done := by
        intro hmem
        exact (List.nodup_append.1 hnodup).2.2 id hmem id List.mem_cons_self rfl
      rw [List.map_cons, List.zip_cons_cons, bindOperands, meaning_bind_operand
        (hoperands (t, v) List.mem_cons_self tenv henv)
        fun h => hnumeric h (t, v) List.mem_cons_self]
      refine ih (henv.temp id v) (hdone.temp hid v) (by simpa using hnodup)
        (Nat.succ.inj hlength) (fun p hp => hoperands p (List.mem_cons_of_mem _ hp))
        (fun h p hp => hnumeric h p (List.mem_cons_of_mem _ hp)) ?_
      simpa using hbody

/-- **An operator stands for the value that its combinator computes.** -/
theorem denotes_combine (hlib : lib.Faithful) {env : Env A.Num} {c : Combinator} {v : Value A.Num}
    {operands : List (Ty × Value A.Num)} (hoperands : ∀ p ∈ operands, Denotes lib env p.1 p.2)
    (hc : Computes A c (operands.map Prod.snd) v) {ids : List Nat}
    (hlength : ids.length = operands.length) (hnodup : ids.Nodup) :
    Denotes lib env (.paren (bindOperands (operandBound c.isNumeric)
      (ids.zip (operands.map Prod.fst)) (combinatorResult c ids))) v := by
  intro tenv henv
  rw [meaning?]
  have hstart : Holds tenv [] [] := rfl
  apply meaning_bindOperands henv hstart hnodup hlength hoperands
  · intro h p hp
    exact hc.isNumber h p.2 (List.mem_map_of_mem hp)
  · intro tenv' henv' h
    exact meaning_combinatorResult hlib henv' hc h

/-! ## Expressions -/

/-- The code `t`, generated among the pattern variables `vars` in the scope `scope`, stands for
the value of `e`. -/
def Stands (lib : Libraries A.Num) (vars : List String) (scope : Scope) (e : Expr) (t : Ty) : Prop :=
  ∀ env, Bare vars scope env → ∀ v, value? A env e = some v → Denotes lib env t v

section

variable {vars : List String} {scope : Scope} {pos : Position}

/-- An operator whose combinator computes its value from the values of its operands. -/
theorem delivers_stands_combine (hlib : lib.Faithful) {c : Combinator} {operands : List Ty}
    {e : Expr} (h : ∀ env : Env A.Num, Bare vars scope env → ∀ v, value? A env e = some v →
      ∃ ps : List (Ty × Value A.Num), ps.map Prod.fst = operands ∧
        (∀ p ∈ ps, Denotes lib env p.1 p.2) ∧ Computes A c (ps.map Prod.snd) v) :
    Delivers vars (Stands lib vars scope e) (combine c operands) := by
  refine (delivers_combine c operands).imp ?_
  rintro t ⟨ids, hlength, hnodup, rfl⟩ env hbare v hv
  obtain ⟨ps, rfl, hps, hc⟩ := h env hbare v hv
  exact denotes_combine hlib hps hc (by simpa using hlength) hnodup

theorem delivers_binary (hlib : lib.Faithful) {op : BinaryOp} {lhs rhs : Expr} {t u : Ty}
    (hop : op ≠ .union ∧ op ≠ .intersection) (ht : Stands lib vars scope lhs t)
    (hu : Stands lib vars scope rhs u) :
    Delivers vars (Stands lib vars scope (.binary pos op lhs rhs)) (binary op t u) := by
  unfold binary
  cases hlowering : op.lowering with
  | native op' => cases op <;> simp_all [BinaryOp.lowering]
  | combinator c =>
    apply delivers_stands_combine hlib
    intro env hbare v hv
    rw [value?] at hv
    obtain ⟨a, ha, hv⟩ := Option.bind_eq_some_iff.1 hv
    obtain ⟨b, hb, hv⟩ := Option.bind_eq_some_iff.1 hv
    obtain ⟨c', hc', hcomputes⟩ := computes_binary hv
    obtain rfl : c = c' := by simpa [hlowering] using hc'
    refine ⟨[(t, a), (u, b)], rfl, ?_, hcomputes⟩
    simpa using ⟨ht env hbare a ha, hu env hbare b hb⟩

theorem delivers_logical (hlib : lib.Faithful) {op : LogicalOp} {lhs rhs : Expr} {t u : Ty}
    (ht : Stands lib vars scope lhs t) (hu : Stands lib vars scope rhs u) :
    Delivers vars (Stands lib vars scope (.logical pos op lhs rhs))
      (combine op.lowering [t, u]) := by
  apply delivers_stands_combine hlib
  intro env hbare v hv
  rw [value?] at hv
  obtain ⟨a, ha, hv⟩ := Option.bind_eq_some_iff.1 hv
  obtain ⟨b, hb, hv⟩ := Option.bind_eq_some_iff.1 hv
  refine ⟨[(t, a), (u, b)], rfl, ?_, computes_logical hv⟩
  simpa using ⟨ht env hbare a ha, hu env hbare b hb⟩

theorem delivers_unary (hlib : lib.Faithful) {op : UnaryOp} {operand : Expr} {t : Ty}
    (ht : Stands lib vars scope operand t) :
    Delivers vars (Stands lib vars scope (.unary pos op operand)) (unary op t) := by
  unfold unary
  cases hlowering : op.lowering with
  | identity =>
    refine delivers_freshId.bind fun id _ => delivers_pure ?_
    intro env hbare v hv tenv henv
    rw [value?] at hv
    obtain ⟨a, ha, hv⟩ := Option.bind_eq_some_iff.1 hv
    rcases computes_unary hv with ⟨c, hc, -⟩ | ⟨-, hnumber, rfl⟩
    · simp [hlowering] at hc
    · have hoperand := ht env hbare v ha tenv henv
      rw [meaning?, bindOperands, meaning_bind_operand hoperand fun _ => hnumber, bindOperands]
      simp [meaning?, Env.value?]
  | combinator c =>
    apply delivers_stands_combine hlib
    intro env hbare v hv
    rw [value?] at hv
    obtain ⟨a, ha, hv⟩ := Option.bind_eq_some_iff.1 hv
    rcases computes_unary hv with ⟨c', hc', hcomputes⟩ | ⟨hidentity, -⟩
    · obtain rfl : c = c' := by simpa [hlowering] using hc'
      refine ⟨[(t, a)], rfl, ?_, hcomputes⟩
      simpa using ht env hbare a ha
    · simp [hlowering] at hidentity

theorem stands_conditional {test consequent alternate : Expr} {t u w : Ty}
    (ht : Stands lib vars scope test t) (hu : Stands lib vars scope consequent u)
    (hw : Stands lib vars scope alternate w) :
    Stands lib vars scope (.conditional pos test consequent alternate)
      (Gen.conditional t u w) := by
  intro env hbare v hv tenv henv
  rw [value?] at hv
  obtain ⟨a, ha, hv⟩ := Option.bind_eq_some_iff.1 hv
  have htest := ht env hbare a ha tenv henv
  rw [Gen.conditional, meaning?]
  split at hv
  · have hbranch := hu env hbare v hv tenv henv
    simp [meaning?, htest, Meaning.value?, hbranch]
  · have hbranch := hw env hbare v hv tenv henv
    simp [meaning?, htest, Meaning.value?, hbranch]
  · cases hv

/-- A let binds its name for what follows. -/
theorem denotes_bindExactly {env : Env A.Num} {name : String} (hname : IsPlain name) {t u : Ty}
    {a v : Value A.Num} (ht : Denotes lib env t a) (hu : Denotes lib ((name, a) :: env) u v) :
    Denotes lib env (.paren (.bindExactly (.user name) t u)) v := by
  intro tenv henv
  have hvalue := ht tenv henv
  have hbody := hu _ (henv.bind hname a)
  simpa [Ty.bindExactly, Ty.bind, meaning?, hvalue, Meaning.value?, Name.render] using hbody

end

mutual

/-- **The code of an expression stands for its value.** -/
theorem delivers_exprTy (hlib : lib.Faithful) (vars : List String) (ctx : Context) :
    ∀ e : Expr, isElementary e = true → (∀ name ∈ letNames e, IsPlain name) →
      Delivers vars (Stands lib vars ctx.scope e) (exprTy ctx e)
  | .binary _ op lhs rhs => by
    intro he hnames
    simp only [isElementary, Bool.and_eq_true, bne_iff_ne] at he
    simp only [letNames, List.forall_mem_append] at hnames
    rw [exprTy]
    exact (delivers_exprTy hlib vars ctx lhs he.2.1 hnames.1).bind fun t ht =>
      (delivers_exprTy hlib vars ctx rhs he.2.2 hnames.2).bind fun u hu =>
        delivers_binary hlib he.1 ht hu
  | .logical _ op lhs rhs => by
    intro he hnames
    simp only [isElementary, Bool.and_eq_true] at he
    simp only [letNames, List.forall_mem_append] at hnames
    rw [exprTy]
    exact (delivers_exprTy hlib vars ctx lhs he.1 hnames.1).bind fun t ht =>
      (delivers_exprTy hlib vars ctx rhs he.2 hnames.2).bind fun u hu =>
        delivers_logical hlib ht hu
  | .unary _ op operand => by
    intro he hnames
    rw [isElementary] at he
    rw [letNames] at hnames
    rw [exprTy]
    exact (delivers_exprTy hlib vars ctx operand he hnames).bind fun t ht =>
      delivers_unary hlib ht
  | .conditional _ test consequent alternate => by
    intro he hnames
    simp only [isElementary, Bool.and_eq_true] at he
    simp only [letNames, List.forall_mem_append] at hnames
    rw [exprTy]
    exact (delivers_exprTy hlib vars ctx test he.1 hnames.1).bind fun t ht =>
      (delivers_exprTy hlib vars ctx consequent he.2.1 hnames.2.1).bind fun u hu =>
        (delivers_exprTy hlib vars ctx alternate he.2.2 hnames.2.2).bind fun w hw =>
          delivers_pure (stands_conditional ht hu hw)
  | .tuple _ elements => by
    intro he hnames
    rw [isElementary] at he
    rw [letNames] at hnames
    rw [exprTy]
    refine (delivers_exprTys hlib vars ctx elements he hnames).bind fun ts hts => delivers_pure ?_
    intro env hbare v hv tenv henv
    rw [value?] at hv
    obtain ⟨vs, hvs, hv⟩ := Option.bind_eq_some_iff.1 hv
    obtain rfl := Option.some.inj hv
    simp [meaning?, hts env hbare vs hvs tenv henv, values?_map_value]
  | .block pos body => by
    intro he hnames
    rw [isElementary] at he
    rw [letNames] at hnames
    rw [exprTy]
    refine (delivers_blockTy hlib vars ctx pos body he hnames).imp fun t ht env hbare v hv => ?_
    rw [value?] at hv
    exact ht env hbare v hv
  | .number _ digits => by
    intro _ _
    rw [exprTy]
    refine delivers_pure fun env hbare v hv tenv henv => ?_
    rw [value?] at hv
    obtain rfl := Option.some.inj hv
    rw [meaning?]
  | .ident _ name => by
    intro _ _
    rw [exprTy]
    refine delivers_patternVars.bind fun vars' hvars => delivers_pure ?_
    intro env hbare v hv tenv henv
    rw [value?] at hv
    rw [hvars, hbare name (by rw [hv]; rfl), meaning?]
    simp [Name.render, henv.value?_eq hv]
  | .assignment .. | .call .. | .field .. | .index .. | .lambda .. | .matching .. | .template ..
  | .object .. | .mapped .. | .infer .. | .string .. | .numberType .. | .stringType .. => by
    intro he
    cases he

theorem delivers_exprTys (hlib : lib.Faithful) (vars : List String) (ctx : Context) :
    ∀ es : List Expr, areElementary es = true → (∀ name ∈ letNamesOfExprs es, IsPlain name) →
      Delivers vars (fun ts => ∀ env, Bare vars ctx.scope env → ∀ vs, values? A env es = some vs →
        ∀ tenv, Simulates env tenv → meanings? A lib tenv ts = some (vs.map .value))
        (exprTys ctx es)
  | [] => by
    intro _ _
    rw [exprTys]
    refine delivers_pure fun env hbare vs hvs tenv henv => ?_
    rw [values?] at hvs
    obtain rfl := Option.some.inj hvs
    rfl
  | e :: es => by
    intro he hnames
    simp only [areElementary, Bool.and_eq_true] at he
    simp only [letNamesOfExprs, List.forall_mem_append] at hnames
    rw [exprTys]
    refine (delivers_exprTy hlib vars ctx e he.1 hnames.1).bind fun t ht =>
      (delivers_exprTys hlib vars ctx es he.2 hnames.2).bind fun ts hts => delivers_pure ?_
    intro env hbare vs hvs tenv henv
    rw [values?] at hvs
    obtain ⟨v, hv, hvs⟩ := Option.bind_eq_some_iff.1 hvs
    obtain ⟨vs', hvs', hvs⟩ := Option.bind_eq_some_iff.1 hvs
    obtain rfl := Option.some.inj hvs
    simp [meanings?, ht env hbare v hv tenv henv, hts env hbare vs' hvs' tenv henv]

theorem delivers_blockTy (hlib : lib.Faithful) (vars : List String) (ctx : Context)
    (pos : Position) : ∀ body : List Stmt, isElementaryBlock body = true →
      (∀ name ∈ letNamesOfStmts body, IsPlain name) →
      Delivers vars (fun t => ∀ env, Bare vars ctx.scope env → ∀ v,
        blockValue? A env body = some v → Denotes lib env t v) (blockTy ctx pos body)
  | [] => by
    intro he
    simp [isElementaryBlock] at he
  | [.expr _ value] => by
    intro he hnames
    rw [isElementaryBlock] at he
    simp only [letNamesOfStmts, List.append_nil] at hnames
    rw [blockTy]
    refine (delivers_exprTy hlib vars ctx value he hnames).imp fun t ht env hbare v hv => ?_
    rw [blockValue?] at hv
    exact ht env hbare v hv
  | .expr p _ :: _ :: _ => by
    intro he
    simp [isElementaryBlock] at he
  | .assertEqual p _ _ :: rest => by
    intro he
    simp [isElementaryBlock] at he
  | [.letDecl p _ _] => by
    intro he
    simp [isElementaryBlock] at he
  | .letDecl _ name value :: s :: rest => by
    intro he hnames
    simp only [isElementaryBlock, Bool.and_eq_true] at he
    rw [letNamesOfStmts, List.forall_mem_cons, List.forall_mem_append] at hnames
    rw [blockTy]
    · refine (delivers_exprTy hlib vars ctx value he.1 hnames.2.1).bind fun t ht =>
        (delivers_blockTy hlib vars (ctx.bind name) pos (s :: rest) he.2 hnames.2.2).bind
          fun u hu => delivers_pure ?_
      intro env hbare v hv
      rw [blockValue?] at hv
      obtain ⟨a, ha, hv⟩ := Option.bind_eq_some_iff.1 hv
      exact denotes_bindExactly hnames.1 (ht env hbare a ha)
        (hu _ (hbare.bind name a) v hv)
    · simp

end

/-- **Lowering preserves meaning.**  Code is generated for every expression that is built from
numbers, truth values, names bound by lets, operators on values, conditionals, tuples and
blocks, and if the expression has a value, its code stands for that value. -/
theorem meaning_of_exprTy (lib : Libraries A.Num) (hlib : lib.Faithful) (ctx : Context)
    (s : GenState) (e : Expr) (he : isElementary e = true)
    (hnames : ∀ name ∈ letNames e, IsPlain name)
    (hbare : ∀ name ∈ ["true", "false"],
      reference s.patternVars ctx.scope name = .name (.user name)) :
    ∃ code s', (exprTy ctx e).Yields s code s' ∧
      ∀ v, value? A [] e = some v → meaning? A lib [] code = some (.value v) := by
  obtain ⟨code, s', hcode, -, hstands⟩ := delivers_exprTy hlib s.patternVars ctx e he hnames rfl
  refine ⟨code, s', hcode, fun v hv => hstands [] (fun name hname => ?_) v hv [] .nil⟩
  exact hbare name (Env.mem_truths rfl hname)

/-- Whole numbers, with division where it leaves no remainder and powers of natural numbers. -/
def integers : Arithmetic where
  Num := Int
  literal digits := digits.toList.foldl (fun n c => 10 * n + (c.toNat - '0'.toNat : Nat)) 0
  add a b := some (a + b)
  sub a b := some (a - b)
  mul a b := some (a * b)
  div a b := if b ∣ a ∧ b ≠ 0 then some (a / b) else none
  pow a b := if 0 ≤ b then some (a ^ b.toNat) else none
  mod a b := if b ≠ 0 then some (a.tmod b) else none
  negate a := some (-a)
  less a b := a < b
  lessEq a b := a ≤ b
  zero_ne_one := by decide

theorem isPlain_of_notMem {name : String} (hsymbol : name ∉ operatorSymbols.map Symbol.name)
    (htemp : '_' ∉ name.toList) : IsPlain name where
  ne_symbol symbol hmem heq := hsymbol (heq ▸ List.mem_map_of_mem hmem)
  ne_temp id heq := htemp (heq ▸ by simp [Name.render])

/-- A block in which a name is bound twice, and in which a branch without a value is not
taken. -/
def shadowingBlock : Expr :=
  .block ⟨1, 1⟩ [
    .letDecl ⟨1, 4⟩ "x" (.number ⟨1, 12⟩ "2"),
    .letDecl ⟨2, 4⟩ "y" (.binary ⟨2, 12⟩ .mul (.ident ⟨2, 12⟩ "x") (.number ⟨2, 16⟩ "3")),
    .letDecl ⟨3, 4⟩ "x" (.binary ⟨3, 12⟩ .sub (.ident ⟨3, 12⟩ "y") (.ident ⟨3, 16⟩ "x")),
    .expr ⟨4, 4⟩ (.conditional ⟨4, 4⟩
      (.logical ⟨4, 7⟩ .and (.binary ⟨4, 7⟩ .lt (.ident ⟨4, 7⟩ "x") (.ident ⟨4, 11⟩ "y"))
        (.unary ⟨4, 16⟩ .not (.binary ⟨4, 18⟩ .eq (.ident ⟨4, 18⟩ "x") (.ident ⟨4, 23⟩ "y"))))
      (.tuple ⟨5, 6⟩ [.ident ⟨5, 7⟩ "x", .unary ⟨5, 10⟩ .negate (.ident ⟨5, 11⟩ "y")])
      (.binary ⟨6, 6⟩ .add (.number ⟨6, 6⟩ "1") (.ident ⟨6, 10⟩ "true")))]

theorem meaning_shadowingBlock :
    ∃ code s', (exprTy ⟨Scope.empty, none, fun _ => none⟩ shadowingBlock).Yields GenState.initial
        code s' ∧
      meaning? integers integers.library [] code =
        some (.value (.tuple [.number (4 : Int), .number (-6 : Int)])) := by
  obtain ⟨code, s', hcode, hmeaning⟩ := meaning_of_exprTy integers.library
    (fun _ _ _ _ h => h) ⟨Scope.empty, none, fun _ => none⟩ GenState.initial shadowingBlock
    (by decide) (by
      have hx : IsPlain "x" := isPlain_of_notMem (by decide) (by decide)
      have hy : IsPlain "y" := isPlain_of_notMem (by decide) (by decide)
      simp [shadowingBlock, letNames, letNamesOfStmts, letNamesOfExprs, hx, hy])
    (by simp [reference, Scope.resolve, Scope.empty, GenState.initial])
  exact ⟨code, s', hcode, hmeaning _ (by decide)⟩

end Lowering

end TypeForge
