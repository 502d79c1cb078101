import Mathlib.Data.List.Forall2
import TypeForge.Proofs.Calling.Code
import TypeForge.Proofs.Generate.Frame
import TypeForge.Proofs.Scope

/-!
# Making the code of calls

Generating code makes the code of calls, one after the other.  What is known on the way are the
names that are bound, so that the number of parameters of a callee is the declared one if its name
is not among them (`Describes`).  The code of a call goes to the result of a computation or to a
lifted function, and no other code of calls is in there (`Codes`).
-/

namespace TypeForge.Calling

open TypeScript Gen

/-- The code of a call applies the callee to as many arguments as the call has, to all or to some
of its parameters as is declared for it. -/
structure AppliedAs (program : Program) (call : Call) (x : CallCode) : Prop where
  length_eq : x.args.length = call.args.length
  /-- What is declared is found by the names that are known to be bound. -/
  manner_eq : x.manner = .of (program.declared call.around.known call.callee) call.args.length
  /-- These are the names that are bound, unless the callee is a let of the section or a variable
  met before in the pattern. -/
  manner_eq_of_isPlain : call.IsPlain →
    x.manner = .of (program.declared call.around.bound call.callee) call.args.length
  /-- A definition is called by its name. -/
  callee_eq : ∀ pos name, call.callee = .ident pos name → name ∉ call.around.known →
    x.callee = .name (.user name)

/-! ## What is known of the surroundings -/

/-- The names that are known to be bound where code is generated. -/
structure Describes (program : Program) (around : Surroundings) (ctx : Context)
    (vars : List String) : Prop where
  known_iff : ∀ name, name ∈ around.known ↔ name ∈ vars ∨ ctx.scope.resolve name ≠ .unbound
  inBinder_iff : around.inBinder = true ↔ ctx.mode = some .binding
  arity_eq : ctx.arity = program.arityOf

section

variable {program : Program} {around : Surroundings} {ctx : Context} {vars : List String}

/-- Inside of a lifted function, its parameters and all that was bound around it are bound. -/
theorem resolve_inside_ne_unbound_iff {own : List String} {mode : Option PatternMode}
    {name : String} :
    (ctx.inside (ctx.scope.captures vars own) own mode).scope.resolve name ≠ .unbound ↔
      name ∈ own ∨ name ∈ vars ∨ ctx.scope.resolve name ≠ .unbound := by
  rw [Context.inside, ne_eq, Scope.resolve_closure_eq_unbound_iff, Scope.mem_captures_iff]
  by_cases hown : name ∈ own <;> by_cases hvars : name ∈ vars <;> simp [hown, hvars]

namespace Describes

theorem outermost (lets : List String) (h : program.arity = program.arityOf) :
    Describes program (.outermost lets) program.context [] where
  known_iff := fun name => by
    simp [Surroundings.outermost, Surroundings.known, Program.context,
      Scope.resolve_eq_unbound_iff, Scope.empty]
  inBinder_iff := by simp [Surroundings.outermost, Program.context]
  arity_eq := h

variable (h : Describes program around ctx vars)
include h

theorem behind (names : List String) :
    Describes program (around.behind names) ctx (vars ++ ctx.bound names) where
  known_iff := fun name => by
    have hknown := h.known_iff name
    rw [Surroundings.mem_known] at hknown
    rw [Surroundings.mem_known, Surroundings.behind, Context.bound, List.mem_append,
      List.mem_append, ← or_assoc, hknown]
    simp only [h.inBinder_iff]
    exact or_right_comm
  inBinder_iff := h.inBinder_iff
  arity_eq := h.arity_eq

theorem bind (name : String) : Describes program (around.bind [name]) (ctx.bind name) vars where
  known_iff := fun other => by
    have hknown := h.known_iff other
    rw [Surroundings.mem_known] at hknown
    rw [Surroundings.mem_known, Surroundings.bind, List.mem_append, or_assoc, hknown,
      List.mem_singleton]
    by_cases hname : other = name
    · subst hname
      simp [Context.bind, Scope.resolve_bind_self]
    · simp [Context.bind, Scope.resolve_bind_of_ne hname, hname]
  inBinder_iff := h.inBinder_iff
  arity_eq := h.arity_eq

/-- The inside of a lifted function with the parameters `own`, where the variables `names` of a
pattern are known. -/
theorem enter {own names all : List String} {mode : Option PatternMode} {inBinder : Bool}
    (hall : ∀ name, name ∈ all ↔ name ∈ names ∨ name ∈ own)
    (hmode : inBinder = true ↔ mode = some .binding) :
    Describes program ((around.bind all).reading inBinder)
      (ctx.inside (ctx.scope.captures vars own) own mode) names where
  known_iff := fun name => by
    have hknown := h.known_iff name
    rw [Surroundings.mem_known] at hknown
    rw [resolve_inside_ne_unbound_iff, ← hknown, Surroundings.mem_known, Surroundings.reading,
      Surroundings.bind, List.mem_append, hall, or_assoc, or_assoc]
  inBinder_iff := hmode
  arity_eq := h.arity_eq

/-- The body of a lambda. -/
theorem lambda (own : List String) :
    Describes program ((around.bind own).reading false)
      (ctx.inside (ctx.scope.captures vars own) own none) [] :=
  h.enter (by simp) (by simp)

/-- The pattern of an arm, where the match stands. -/
theorem shape : Describes program (around.reading false) (ctx.reading .shape) vars where
  known_iff := h.known_iff
  inBinder_iff := by simp [Surroundings.reading, Context.reading]
  arity_eq := h.arity_eq

/-- The pattern of an arm, in the lifted function. -/
theorem binder : Describes program (around.reading true)
    (ctx.inside (ctx.scope.captures vars []) [] (some .binding)) [] := by
  have hnone (name : String) : name ∈ ([] : List String) ↔ name ∈ [] ∨ name ∈ [] := by simp
  exact h.enter hnone (by simp)

/-- The result of an arm. -/
theorem result (names : List String) :
    Describes program ((around.bind names).reading false)
      (ctx.inside (ctx.scope.captures vars []) [] none) names :=
  h.enter (by simp) (by simp)

/-- The number of parameters that is known is the declared one. -/
theorem knownArity_eq (callee : Expr) :
    knownArity ctx vars callee = program.declared around.known callee := by
  cases callee with
  | ident pos name =>
    rw [knownArity, Program.declared]
    have hknown := h.known_iff name
    by_cases hname : name ∈ around.known
    · rw [if_pos hname, if_neg]
      rintro ⟨hvars, hresolve⟩
      exact (hknown.1 hname).elim hvars (absurd hresolve)
    · rw [hknown, not_or, not_not] at hname
      rw [if_pos hname, if_neg (by rwa [hknown, not_or, not_not]), h.arity_eq]
  | _ => rfl

end Describes

end

/-! ## Computations that make the code of calls -/

/-- `xs` is the code of `calls`, one by one, made with the ids from `first` up to `last`. -/
structure Coded (program : Program) (calls : List Call) (xs : List CallCode) (first last : Nat) :
    Prop where
  first_le : first ≤ last
  applied : List.Forall₂ (AppliedAs program) calls xs
  inOrder : xs.Pairwise fun x y => x.id < y.id
  fresh : ∀ x ∈ xs, first ≤ x.id ∧ x.id < last

section

variable {program : Program} {calls more : List Call} {xs ys : List CallCode}
  {first middle last : Nat}

theorem coded_nil (h : first ≤ last) : Coded program [] [] first last :=
  ⟨h, .nil, .nil, fun _ hx => absurd hx List.not_mem_nil⟩

theorem Coded.append (hxs : Coded program calls xs first middle)
    (hys : Coded program more ys middle last) :
    Coded program (calls ++ more) (xs ++ ys) first last where
  first_le := Nat.le_trans hxs.first_le hys.first_le
  applied := List.rel_append hxs.applied hys.applied
  inOrder := by
    refine List.pairwise_append.2 ⟨hxs.inOrder, hys.inOrder, fun x hx y hy => ?_⟩
    exact Nat.lt_of_lt_of_le (hxs.fresh x hx).2 (hys.fresh y hy).1
  fresh := by
    intro x hx
    have hle := hxs.first_le
    have hle' := hys.first_le
    rcases List.mem_append.1 hx with hx | hx
    · have hfresh := hxs.fresh x hx
      omega
    · have hfresh := hys.fresh x hx
      omega

theorem Coded.mono {first' last' : Nat} (h : Coded program calls xs first last)
    (hfirst : first' ≤ first) (hlast : last ≤ last') : Coded program calls xs first' last' := by
  have hxs := (coded_nil hfirst).append (h.append (coded_nil hlast))
  rwa [List.append_nil, List.append_nil] at hxs

/-- A call that was reached before the others. -/
theorem Coded.cons {call : Call} {x : CallCode} (h : Coded program calls xs (first + 1) last)
    (hx : AppliedAs program call x) (hid : x.id = first) :
    Coded program (call :: calls) (x :: xs) first last := by
  have hhead : Coded program [call] [x] first (first + 1) := by
    refine ⟨Nat.le_succ _, .cons hx .nil, List.pairwise_singleton _ _, fun y hy => ?_⟩
    rw [List.mem_singleton.1 hy, hid]
    exact ⟨Nat.le_refl _, Nat.lt_succ_self _⟩
  exact hhead.append h

end

/-- Every successful run of `m` with the pattern variables `vars` makes the code of `calls`.  It
goes to the result, which stands for the code `after`, and to the functions that are lifted; and
all code of calls in there was made in the run, or it was in the code `before` that the run is
about. -/
def Codes {α : Type} (program : Program) (vars : List String) (before : List Ty)
    (calls : List Call) (m : Gen α) (after : α → List Ty) : Prop :=
  ∀ ⦃s : GenState⦄ ⦃a : α⦄ ⦃s' : GenState⦄, m.Yields s a s' → s.patternVars = vars →
    ∃ (xs : List CallCode) (new : List Interface), Coded program calls xs s.nextId s'.nextId ∧
      s'.lifted = s.lifted ++ new ∧ ∀ x : CallCode,
        x.ty ∈ conditionalsOfTys (after a ++ new.map Interface.body) ↔
          x.ty ∈ conditionalsOfTys before ∨ x ∈ xs

section

variable {α β : Type} {program : Program} {vars bound : List String} {before : List Ty}
  {calls more : List Call} {m : Gen α} {f : α → Gen β} {after : α → List Ty}
  {after' : β → List Ty}

theorem codes_fail (pos : Position) (error : GenError) :
    Codes program vars before calls (fail pos error) after :=
  fun _ _ _ h => absurd h yields_fail

/-- A quiet computation that adds no call to the code it is about. -/
theorem codes_of_quiet (hm : Quiet m)
    (h : Returns (fun a => SameCalls (after a) before) m) :
    Codes program vars before [] m after := by
  intro s a s' ha _
  have hs := hm ha
  refine ⟨[], [], coded_nil hs.nextId_le, by rw [hs.lifted_eq, List.append_nil], fun x => ?_⟩
  simpa using h ha x

theorem Codes.bind (hm : Codes program vars before calls m after) (hbinds : Binds bound m)
    (hf : ∀ a, Codes program (vars ++ bound) (after a) more (f a) after') :
    Codes program vars before (calls ++ more) (m >>= f) after' := by
  intro s b s' h hvars
  obtain ⟨a, t, ha, hb⟩ := yields_bind.1 h
  obtain ⟨xs, new, hxs, hnew, hmem⟩ := hm ha hvars
  have hvars' : t.patternVars = vars ++ bound := by rw [(hbinds ha).patternVars_eq, hvars]
  obtain ⟨ys, new', hys, hnew', hmem'⟩ := hf a hb hvars'
  refine ⟨xs ++ ys, new ++ new', hxs.append hys, by rw [hnew', hnew, List.append_assoc],
    fun x => ?_⟩
  have hfirst := hmem x
  have hsecond := hmem' x
  rw [conditionalsOfTys_append, List.mem_append] at hfirst hsecond
  rw [List.map_append, conditionalsOfTys_append, conditionalsOfTys_append, List.mem_append,
    List.mem_append, List.mem_append, or_left_comm, hsecond, or_left_comm, ← or_assoc, hfirst,
    or_assoc]

/-- What a run is not about does not matter. -/
theorem Codes.frame (hm : Codes program vars [] calls m after) (before : List Ty) :
    Codes program vars before calls m fun a => after a ++ before := by
  intro s a s' ha hvars
  obtain ⟨xs, new, hxs, hnew, hmem⟩ := hm ha hvars
  refine ⟨xs, new, hxs, hnew, fun x => ?_⟩
  have hx := hmem x
  simp only [conditionalsOfTys_append, List.mem_append, conditionalsOfTys, List.not_mem_nil,
    false_or] at hx ⊢
  rw [or_right_comm, hx, or_comm]

/-- Code is made and left to the computation behind it. -/
theorem Codes.next (hm : Codes program vars [] calls m after) (hbinds : Binds bound m)
    (hf : ∀ a, Codes program (vars ++ bound) (after a ++ before) more (f a) after') :
    Codes program vars before (calls ++ more) (m >>= f) after' :=
  (hm.frame before).bind hbinds hf

/-- Code is made without binding pattern variables. -/
theorem Codes.next_silent (hm : Codes program vars [] calls m after) (hbinds : Binds [] m)
    (hf : ∀ a, Codes program vars (after a ++ before) more (f a) after') :
    Codes program vars before (calls ++ more) (m >>= f) after' :=
  hm.next hbinds fun a => by
    rw [List.append_nil]
    exact hf a

/-- A quiet computation at the end. -/
theorem Codes.andThen (hm : Codes program vars [] calls m after) (hf : ∀ a, Quiet (f a))
    (h : ∀ a, Returns (fun b => SameCalls (after' b) (after a ++ before)) (f a)) :
    Codes program vars before calls (m >>= f) after' := by
  intro s b s' hb hvars
  obtain ⟨a, t, ha, hb⟩ := yields_bind.1 hb
  obtain ⟨xs, new, hxs, hnew, hmem⟩ := hm.frame before ha hvars
  have ht := hf a hb
  refine ⟨xs, new, hxs.mono (Nat.le_refl _) ht.nextId_le, ht.lifted_eq.trans hnew, fun x => ?_⟩
  rw [← hmem x]
  simp only [conditionalsOfTys_append, List.mem_append, h a hb x]

theorem Codes.map (hm : Codes program vars [] calls m after) (g : α → β)
    (h : ∀ a, SameCalls (after' (g a)) (after a ++ before)) :
    Codes program vars before calls (do return g (← m)) after' :=
  hm.andThen (fun a => quiet_pure (g a)) fun a => returns_pure (h a)

theorem Codes.of_map {g : α → β} (h : Codes program vars before calls (do return g (← m)) after') :
    Codes program vars before calls m fun a => after' (g a) :=
  fun _ a _ ha => h (yields_bind.2 ⟨a, _, ha, yields_pure.2 ⟨rfl, rfl⟩⟩)

/-- The code that stands for a result may be taken in another form. -/
theorem Codes.congr {after'' : α → List Ty} (hm : Codes program vars before calls m after)
    (h : ∀ a, SameCalls (after'' a) (after a)) :
    Codes program vars before calls m after'' := by
  intro s a s' ha hvars
  obtain ⟨xs, new, hxs, hnew, hmem⟩ := hm ha hvars
  refine ⟨xs, new, hxs, hnew, fun x => ?_⟩
  rw [← hmem x]
  simp only [conditionalsOfTys_append, List.mem_append, h a x]

/-- A quiet computation in front. -/
theorem codes_skip (hm : Quiet m) (hf : ∀ a, Codes program vars before calls (f a) after') :
    Codes program vars before calls (m >>= f) after' := by
  intro s b s' h hvars
  obtain ⟨a, t, ha, hb⟩ := yields_bind.1 h
  have ht := hm ha
  obtain ⟨xs, new, hxs, hnew, hmem⟩ := hf a hb (ht.patternVars_eq.trans hvars)
  exact ⟨xs, new, hxs.mono ht.nextId_le (Nat.le_refl _), by rw [hnew, ht.lifted_eq], hmem⟩

end

/-! ## The constructs -/

section

variable {program : Program} {around : Surroundings} {ctx : Context} {vars : List String}
  {calls more : List Call}

theorem returns_argTys (ctx : Context) (es : List Expr) :
    Returns (fun args => args.length = es.length) (argTys ctx es) := by
  induction es with
  | nil =>
    rw [argTys]
    exact returns_pure rfl
  | cons e es ih =>
    rw [argTys]
    refine returns_skip fun id => returns_skip fun t => ih.bind fun ts hts => returns_pure ?_
    rw [List.length_cons, List.length_cons, hts]

/-- A call with arguments becomes the code of a call. -/
theorem returns_applyCall (arity : Option Nat) (callee : Ty) (id : Nat) (value : Ty)
    (others : List (Nat × Ty)) :
    Returns (fun t => t =
        .paren (CallCode.ty ⟨.of arity (others.length + 1), callee, id, value, others⟩))
      (applyCall arity callee ((id, value) :: others)) := by
  refine (returns_application_manner _ _ _).bind fun body hbody => returns_pure ?_
  rw [hbody, CallCode.ty_eq_bindArgs, List.length_map, List.length_cons]
  rfl

/-- Without arguments, a call is its callee. -/
theorem returns_applyCall_nil (arity : Option Nat) (callee : Ty) :
    Returns (fun t => t = .paren callee) (applyCall arity callee []) := by
  have hcallee : Returns (fun t => t = callee) (pure callee : Gen Ty) := returns_pure rfl
  refine hcallee.bind fun body hbody => returns_pure ?_
  rw [bindArgs, hbody]

/-- The parts of a call with arguments: the id of the first argument is taken before the code of
the arguments and of the callee is made. -/
theorem yields_call {callee e : Expr} {es : List Expr} {s s' : GenState} {t : Ty}
    (h : (do
      let args ← argTys ctx (e :: es)
      let arity := knownArity ctx (← patternVars) callee
      let callee ← exprTy ctx callee
      applyCall arity callee args : Gen Ty).Yields s t s') :
    ∃ s₁ value others c s₂,
      (do let t ← exprTy ctx e; let ts ← argTys ctx es; return (s.nextId, t) :: ts : Gen _).Yields
        { s with nextId := s.nextId + 1 } ((s.nextId, value) :: others) s₁ ∧
      others.length = es.length ∧
      s₁.patternVars = s.patternVars ++ ctx.bound (patternVarsOfExprs (e :: es)) ∧
      (exprTy ctx callee).Yields s₁ c s₂ ∧ s₂.Undisturbed s' ∧
      t = .paren (CallCode.ty ⟨.of (knownArity ctx s₁.patternVars callee) (es.length + 1), c,
        s.nextId, value, others⟩) := by
  obtain ⟨args, s₁, hargs, h⟩ := yields_bind.1 h
  have hvars := (binds_argTys ctx (e :: es) hargs).patternVars_eq
  have hlength := returns_argTys ctx (e :: es) hargs
  rw [argTys] at hargs
  obtain ⟨id, s₀, hid, hargs⟩ := yields_bind.1 hargs
  obtain ⟨rfl, rfl⟩ := yields_freshId.1 hid
  have hparts := hargs
  simp only [yields_bind, yields_pure] at hparts
  obtain ⟨value, _, -, others, _, -, rfl, rfl⟩ := hparts
  obtain ⟨_, _, hfound, h⟩ := yields_bind.1 h
  obtain ⟨rfl, rfl⟩ := yields_patternVars.1 hfound
  obtain ⟨c, s₂, hc, h⟩ := yields_bind.1 h
  have hothers : others.length = es.length := Nat.succ.inj hlength
  refine ⟨_, value, others, c, s₂, hargs, hothers, hvars, hc, quiet_applyCall _ _ _ h, ?_⟩
  rw [← hothers]
  exact returns_applyCall _ _ _ _ _ h

/-- The name of a definition is the code of an identifier that stands for it. -/
theorem Describes.eq_name_of_ident (h : Describes program around ctx vars) {pos : Position}
    {name : String} (hname : name ∉ around.known) {s s' : GenState} {t : Ty}
    (ht : (exprTy ctx (.ident pos name)).Yields s t s') (hvars : s.patternVars = vars) :
    t = .name (.user name) := by
  rw [exprTy] at ht
  simp only [yields_bind, yields_patternVars, yields_pure] at ht
  obtain ⟨_, _, ⟨rfl, rfl⟩, rfl, rfl⟩ := ht
  rw [h.known_iff, not_or, not_not] at hname
  rw [hvars, reference, if_neg hname.1, hname.2]

theorem Describes.appliedAs (h : Describes program around ctx vars) {callee : Expr}
    {args : List Expr} {s s' : GenState} {c : Ty} (hc : (exprTy ctx callee).Yields s c s')
    (hvars : s.patternVars = vars) {x : CallCode} (hcallee : x.callee = c)
    (hlength : x.args.length = args.length)
    (hmanner : x.manner = .of (knownArity ctx s.patternVars callee) args.length) :
    AppliedAs program ⟨around, callee, args⟩ x where
  length_eq := hlength
  manner_eq := by rw [hmanner, hvars, h.knownArity_eq]
  manner_eq_of_isPlain := fun hplain => by
    rw [hmanner, hvars, h.knownArity_eq, ← hplain.declared_eq]
  callee_eq := by
    rintro pos name rfl hname
    rw [hcallee]
    exact h.eq_name_of_ident hname hc hvars

/-- **A call.**  Its own code comes before that of the calls in its arguments and in its
callee. -/
theorem codes_call (h : Describes program around ctx vars) {callee e : Expr} {es : List Expr}
    (hargs : ∀ id, Codes program vars [] calls
      (do let t ← exprTy ctx e; let ts ← argTys ctx es; return (id, t) :: ts)
      fun args => args.map Prod.snd)
    (hcallee : Codes program (vars ++ ctx.bound (patternVarsOfExprs (e :: es))) [] more
      (exprTy ctx callee) fun t => [t]) :
    Codes program vars []
      (⟨around.behind (patternVarsOfExprs (e :: es)), callee, e :: es⟩ :: (calls ++ more))
      (do
        let args ← argTys ctx (e :: es)
        let arity := knownArity ctx (← patternVars) callee
        let callee ← exprTy ctx callee
        applyCall arity callee args) fun t => [t] := by
  intro s t s' ht hvars
  obtain ⟨s₁, value, others, c, s₂, hrun, hothers, hvars₁, hc, hquiet, rfl⟩ := yields_call ht
  rw [hvars] at hvars₁
  obtain ⟨xs, new, hxs, hnew, hmem⟩ := hargs _ hrun hvars
  obtain ⟨ys, new', hys, hnew', hmem'⟩ := hcallee hc hvars₁
  let x : CallCode :=
    ⟨.of (knownArity ctx s₁.patternVars callee) (es.length + 1), c, s.nextId, value, others⟩
  have happlied : AppliedAs program ⟨_, callee, e :: es⟩ x :=
    (h.behind (patternVarsOfExprs (e :: es))).appliedAs hc hvars₁ rfl (congrArg Nat.succ hothers) rfl
  refine ⟨x :: (xs ++ ys), new ++ new', ?_, ?_, fun y => ?_⟩
  · exact ((hxs.append hys).mono (Nat.le_refl _) hquiet.nextId_le).cons happlied rfl
  · rw [hquiet.lifted_eq, hnew', hnew, List.append_assoc]
  · have hargs := hmem y
    have hcallee := hmem' y
    have hcall : y.ty ∈ x.ty.conditionals ↔ _ := mem_conditionals_call x
    simp only [conditionalsOfTys_append, List.mem_append, conditionalsOfTys, List.not_mem_nil,
      List.append_nil, false_or, List.map_append, List.mem_cons, Ty.conditionals] at hargs hcallee ⊢
    rw [hcall, ← hargs, ← hcallee, or_assoc, or_or_or_comm]
    rfl

/-- A method is no callee. -/
theorem codes_methodCall (pos : Position) (method : String) {object : Gen Ty}
    {args : Gen (List Ty)} {bound : List String}
    (hobject : Codes program vars [] calls object fun t => [t]) (hbinds : Binds bound object)
    (hargs : Codes program (vars ++ bound) [] more args fun ts => ts) :
    Codes program vars [] (calls ++ more) (do
      let symbol ← methodSymbol pos method
      let object ← object
      let args ← args
      return .paren (.applied symbol (object :: args))) fun t => [t] := by
  refine codes_skip (quiet_methodSymbol pos method) fun symbol => hobject.next hbinds fun t =>
    hargs.map _ fun ts x => ?_
  simp [Ty.applied, Ty.ofSymbol, or_comm]

/-- A pattern variable adds no call to its bound. -/
theorem codes_patternVar (mode : PatternMode) (pos : Position) (name : String)
    (bound : Option Ty) :
    Codes program vars bound.toList [] (patternVar mode pos name bound) fun t => [t] := by
  intro s t s' h _
  cases mode with
  | shape =>
    obtain ⟨rfl, rfl⟩ := yields_pure.1 h
    refine ⟨[], [], coded_nil (Nat.le_refl _), by simp, fun x => ?_⟩
    cases bound <;> simp
  | binding =>
    obtain ⟨-, rfl, rfl⟩ := yields_patternVar_binding.1 h
    refine ⟨[], [], coded_nil (Nat.le_refl _), by simp, fun x => ?_⟩
    cases bound <;> simp

/-! ## Lifted functions -/

theorem codes_guarded {params : List Param} {bounds : Gen (List Ty)} {body : Gen Ty}
    (hbounds : Codes program vars [] (callsOfBounds around params) bounds fun ts => ts)
    (hsilent : Binds [] bounds) (hbody : Codes program vars [] calls body fun t => [t]) :
    Codes program vars [] (callsOfBounds around params ++ calls) (guarded params bounds body)
      fun t => [t] := by
  unfold guarded
  split
  · next h =>
    rw [callsOfBounds_eq_nil h, List.nil_append]
    exact hbody
  · refine hbounds.next_silent hsilent fun ts => hbody.map _ fun t x => ?_
    have hne (pattern yes no : Ty) (args : List Ty) :
        x.ty ≠ .conditional (.tuple args) pattern yes no := CallCode.ty_ne_of_check (by simp)
    have hargs : conditionalsOfTys ((List.range params.length).map fun i => Ty.arg (i + 1)) = [] :=
      conditionalsOfTys_map_eq_nil (fun _ => by rw [Ty.conditionals]) _
    simp [hne, hargs, or_comm]

theorem codes_liftLambda {params : List Param} {bounds : Context → Gen (List Ty)}
    {body : Context → Gen Ty}
    (h : Codes program [] [] calls
      (guarded params
        (bounds (ctx.inside (ctx.scope.captures vars (params.map Param.name))
          (params.map Param.name) none))
        (body (ctx.inside (ctx.scope.captures vars (params.map Param.name))
          (params.map Param.name) none))) fun t => [t]) :
    Codes program vars [] calls (liftLambda ctx params bounds body) fun t => [t] := by
  intro s t s' ht hvars
  obtain ⟨s₀, code, s₁, hs₀, hcode, rfl, rfl⟩ := ht.of_liftLambda
  rw [hvars] at hcode
  obtain ⟨xs, new, hxs, hnew, hmem⟩ := h hcode rfl
  refine ⟨xs, new ++ [⟨.lambda s₁.nextId, code⟩], hxs.mono hs₀.nextId_le (Nat.le_succ _), ?_,
    fun x => ?_⟩
  · rw [hnew, ← hs₀.lifted_eq, List.append_assoc]
  · rw [← hmem x]
    simp [conditionals_closure, or_comm]

theorem codes_liftArm {pattern result : Context → Gen Ty} {names : List String}
    {shape binder results : List Call}
    (hshape : Codes program vars [] shape (pattern (ctx.reading .shape)) fun t => [t])
    (hbinder : Codes program [] [] binder
      (pattern (ctx.inside (ctx.scope.captures vars []) [] (some .binding))) fun t => [t])
    (hbinds : Binds names (pattern (ctx.inside (ctx.scope.captures vars []) [] (some .binding))))
    (hresult : Codes program names [] results
      (result (ctx.inside (ctx.scope.captures vars []) [] none)) fun t => [t]) :
    Codes program vars [] (shape ++ (binder ++ results)) (liftArm ctx pattern result)
      fun t => [t] := by
  intro s t s' ht hvars
  obtain ⟨s₀, site, s₁, code, s₂, body, s₃, hs₀, hsite, hcode, hbody, rfl, rfl⟩ := ht.of_liftArm
  rw [hvars] at hcode hbody
  obtain ⟨xs₁, new₁, hxs₁, hnew₁, hmem₁⟩ := hshape hsite (hs₀.patternVars_eq.trans hvars)
  obtain ⟨xs₂, new₂, hxs₂, hnew₂, hmem₂⟩ := hbinder hcode rfl
  obtain ⟨xs₃, new₃, hxs₃, hnew₃, hmem₃⟩ := hresult hbody (hbinds hcode).patternVars_eq
  let arm : Interface := ⟨.arm s₃.nextId, .conditional (.arg 1) code body .never⟩
  refine ⟨xs₁ ++ (xs₂ ++ xs₃), new₁ ++ (new₂ ++ (new₃ ++ [arm])), ?_, ?_, fun x => ?_⟩
  · exact (hxs₁.append (hxs₂.append hxs₃)).mono hs₀.nextId_le (Nat.le_succ _)
  · rw [hnew₃, hnew₂, hnew₁, hs₀.lifted_eq]
    simp [arm]
  · have hne (pattern yes no : Ty) : x.ty ≠ .conditional (.arg 1) pattern yes no :=
      CallCode.ty_ne_of_check (by simp)
    have h₁ := hmem₁ x
    have h₂ := hmem₂ x
    have h₃ := hmem₃ x
    simp only [List.cons_append, List.nil_append, conditionalsOfTys, List.mem_append,
      List.not_mem_nil, false_or] at h₁ h₂ h₃
    rw [List.mem_append, List.mem_append, ← h₁, ← h₂, ← h₃]
    simp [arm, hne, conditionals_closure, or_comm, or_left_comm, or_assoc]

end

end TypeForge.Calling
