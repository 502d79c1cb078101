import TypeForge.Proofs.Hygiene.Known
import TypeForge.Proofs.Scoping.Conversion

/-!
# Lets of sections

A section becomes a namespace, and a let of it a declaration in there.  Lambdas and arms are
lifted to the top level, out of the namespace, and the statements of a section are generated
in a scope that does not have its lets, so no closure takes them along.  A let of a section is
therefore seen by the statements of the section, but not by the lambdas and arms in them: what
is lifted mentions it by its bare name, which nothing binds there.
-/

namespace TypeForge

open TypeScript Scoping Gen

variable {x : String}

/-! ## Sections -/

/-- The declaration `a` exposes the names that the statement `stmt` uses without binding them,
and it is called like the let that it comes from. -/
structure ShownBy (table : List Lifted) (x : String) (stmt : Stmt) (a : Alias) : Prop where
  exposes : ∀ lifted, x ∈ stmt.free lifted → Exposes table x lifted (a.value.occurrences [])
  name_eq : ∀ name ∈ stmt.letName?, a.name = .user name

variable {ctx : Context}

theorem makes_sectionStmt_shows (h : ctx.mode = none) (hx : ctx.scope.resolve x = .unbound)
    (stmt : Stmt) : Makes [] (sectionStmt ctx stmt) fun final a => ShownBy final x stmt a := by
  cases stmt with
  | letDecl pos name value =>
    refine (makes_exprTy h [] value).bind fun t =>
      makes_pure fun final ht => ⟨fun lifted hmem => ?_, fun name hname => ?_⟩
    · exact ht.exposes x List.not_mem_nil hx lifted (by simpa [Stmt.free, freeOfStmts] using hmem)
    · cases hname
      rfl
  | assertEqual pos left right =>
    refine makes_skip (quiet_require _) fun _ => makes_skip (quiet_require _) fun _ =>
      makes_skip (quiet_require _) fun _ => (makes_exprTy h [] left).bind
        fun l => (makes_exprTy h [] right).bind fun r =>
          makes_skip quiet_freshId fun id => makes_pure fun final hr hl =>
            ⟨fun lifted hmem => ?_, fun name hname => absurd hname (by simp [Stmt.letName?])⟩
    have hparts := (hl.exposes.append hr.exposes) x List.not_mem_nil hx lifted
      (by simpa [Stmt.free, freeOfStmts] using hmem)
    rw [exposes_append] at hparts
    simp only [Ty.applied, Ty.ofSymbol, Ty.occurrences, occurrencesOfTys, exposes_append]
    exact .inr (.inl (.inr (.inl (.inr (hparts.imp_right .inl)))))
  | expr pos value =>
    refine (makes_exprTy h [] value).bind fun t =>
      makes_skip quiet_freshId fun id => makes_pure fun final ht =>
        ⟨fun lifted hmem => ?_, fun name hname => absurd hname (by simp [Stmt.letName?])⟩
    exact ht.exposes x List.not_mem_nil hx lifted (by simpa [Stmt.free, freeOfStmts] using hmem)

theorem makes_sectionStmts_shows (h : ctx.mode = none) (hx : ctx.scope.resolve x = .unbound)
    (stmts : List Stmt) :
    Makes [] (sectionStmts ctx stmts) fun final as => List.Forall₂ (ShownBy final x) stmts as := by
  induction stmts with
  | nil => exact makes_pure fun _ => .nil
  | cons stmt stmts ih =>
    exact (makes_sectionStmt_shows h hx stmt).bind fun _ => ih.bind fun _ =>
      makes_pure fun _ hrest hfirst => .cons hfirst hrest

/-- The lets of a section are among the names that its declarations bind. -/
theorem user_mem_names {table : List Lifted} {stmts : List Stmt} {as : List Alias}
    (h : List.Forall₂ (ShownBy table x) stmts as) {name : String}
    (hname : name ∈ stmts.filterMap Stmt.letName?) : .user name ∈ as.map Alias.name := by
  induction h with
  | nil => cases hname
  | @cons stmt a stmts as hshown hrest ih =>
    obtain ⟨stmt', hmem, hlet⟩ := List.mem_filterMap.1 hname
    rcases List.mem_cons.1 hmem with rfl | hmem
    · exact List.mem_cons.2 (.inl (hshown.name_eq name hlet).symm)
    · exact List.mem_cons_of_mem _ (ih (List.mem_filterMap.2 ⟨stmt', hmem, hlet⟩))

/-- The declaration of a section consists of declarations of its statements. -/
def Groups (table : List Lifted) (x : String) (item : TopLevel) (d : Declaration) : Prop :=
  ∀ s, item = .sectionOf s →
    ∃ as, d = .group s.name as ∧ List.Forall₂ (ShownBy table x) s.body as

theorem makes_topLevels_shows (h : ctx.mode = none) (hscope : ctx.scope = Scope.empty)
    (items : List TopLevel) :
    Makes [] (topLevels ctx items) fun final ds => List.Forall₂ (Groups final x) items ds := by
  have hx : ctx.scope.resolve x = .unbound := by rw [hscope]; rfl
  induction items with
  | nil => exact makes_pure fun _ => .nil
  | cons item items ih =>
    have hitem : Makes [] (topLevel ctx item) fun final d => Groups final x item d := by
      cases item with
      | definition d =>
        exact (makes_definition h hscope d).imp fun _ _ _ s heq => nomatch heq
      | sectionOf s =>
        refine (makes_sectionStmts_shows h hx s.body).bind fun as =>
          makes_pure fun final has s' heq => ?_
        cases heq
        exact ⟨as, rfl, has⟩
      | importOf i => exact makes_pure fun _ s heq => nomatch heq
    exact hitem.bind fun _ => ih.bind fun _ => makes_pure fun _ hrest hfirst => .cons hfirst hrest

/-! ## What is seen of a section's lets -/

/-- What a bare word stands for: the innermost binder of its spelling, if there is one. -/
def TypeScript.Occurrence.binder? (o : Occurrence) : Option Name :=
  o.binders.find? fun b => b.render == o.word.text

/-- Code that mentions a lifted function, or one whose code does. -/
inductive Calls (lifted : List Interface) : Ty → Interface → Prop where
  | direct {t : Ty} {f : Interface} {o : Occurrence} (mem : f ∈ lifted)
      (o_mem : o ∈ t.occurrences []) (word_eq : o.word = .name f.name) : Calls lifted t f
  | through {t : Ty} {f g : Interface} {o : Occurrence} (mem : f ∈ lifted)
      (o_mem : o ∈ t.occurrences []) (word_eq : o.word = .name f.name)
      (calls : Calls lifted f.body g) : Calls lifted t g

theorem Carries.eq_bare {table : List Lifted} {w : BareWord} (h : Carries table x false w) :
    w = .name (.user x) := by
  cases h
  rfl

/-- What brings up a name leads to a function that mentions it by itself. -/
theorem Carries.exists_calls {table : List Lifted} {w : BareWord} (h : Carries table x true w)
    {t : Ty} {o : Occurrence} (ho : o ∈ t.occurrences []) (hword : o.word = w) :
    ∃ f ∈ table.map Lifted.toInterface, Calls (table.map Lifted.toInterface) t f ∧
      ∃ o ∈ f.body.occurrences [], o.word = .name (.user x) ∧ .user x ∉ o.binders := by
  generalize hb : true = b at h
  induction h generalizing t o with
  | bare => cases hb
  | @lifted f mem b o' o_mem notMem carries ih =>
    have hf : f.toInterface ∈ table.map Lifted.toInterface := List.mem_map_of_mem mem
    cases b with
    | false =>
      exact ⟨f.toInterface, hf, .direct hf ho hword, o', o_mem, carries.eq_bare, notMem⟩
    | true =>
      obtain ⟨g, hg, hcalls, hbare⟩ := ih o_mem rfl rfl
      exact ⟨g, hg, .through hf ho hword hcalls, hbare⟩

/-- A name of the source that is not spelled like a generated one stands for a binder of that
name, if there is one around it. -/
theorem binder?_of_plain {o : Occurrence} (hword : o.word = .name (.user x))
    (hplain : ¬ IsGenerated x) :
    o.binder? = if .user x ∈ o.binders then some (.user x) else none := by
  have htext : o.word.text = x := by rw [hword]; rfl
  have hname : ∀ b : Name, b.render = x → b = .user x := by
    intro b hb
    cases b with
    | user text => exact congrArg Name.user hb
    | _ => exact absurd ⟨_, rfl, hb⟩ hplain
  unfold Occurrence.binder?
  rw [htext]
  cases hfind : o.binders.find? fun b => b.render == x with
  | none =>
    rw [if_neg]
    intro hmem
    have hne := List.find?_eq_none.1 hfind _ hmem
    exact hne (beq_self_eq_true x)
  | some b =>
    have hrender := List.find?_some hfind
    obtain rfl := hname b (beq_iff_eq.1 hrender)
    rw [if_pos (List.mem_of_find?_eq_some hfind)]

/-- **A let of a section is seen outside of lambdas and arms only.**  In the code of a program
that compiles, a statement of a section becomes a declaration of a namespace.  A let of the
section that the statement uses outside of lambdas and arms is mentioned there, and stands for
the let.  One that it uses inside of them is mentioned in a lifted function that the declaration
leads to, and there it stands for nothing that the function binds. -/
theorem section_let_seen_outside_closures_only {program : Program} {m : Module}
    (h : program.generate = .ok m) {k i : Nat} {s : Section} {stmt : Stmt}
    (hs : program.body[k]? = some (.sectionOf s)) (hstmt : s.body[i]? = some stmt)
    (hlet : x ∈ s.body.filterMap Stmt.letName?) (hplain : ¬ IsGenerated x) :
    ∃ as a, m.items[k]? = some (.group s.name as) ∧ as[i]? = some a ∧
      (x ∈ stmt.free false → ∃ o ∈ a.value.occurrences (as.map Alias.name),
        o.word = .name (.user x) ∧ o.binder? = some (.user x)) ∧
      (x ∈ stmt.free true → ∃ f ∈ m.lifted, Calls m.lifted a.value f ∧
        ∃ o ∈ f.body.occurrences [], o.word = .name (.user x) ∧ o.binder? = none) := by
  obtain ⟨final, hrun, hlifted⟩ := yields_of_generate h
  obtain ⟨-, hmake⟩ := makes_topLevels_shows rfl rfl program.body hrun rfl
  obtain ⟨table, -, htable, hitems⟩ := hmake [] rfl
  rw [← htable] at hlifted
  have hall := hitems table (List.Subset.refl _)
  obtain ⟨hk, hsection⟩ := List.getElem?_eq_some_iff.1 hs
  have hk' : k < m.items.length := hall.length_eq ▸ hk
  obtain ⟨as, hgroup, has⟩ := hall.get hk hk' s hsection
  obtain ⟨hi, hbody⟩ := List.getElem?_eq_some_iff.1 hstmt
  have hi' : i < as.length := has.length_eq ▸ hi
  have hshown := has.get hi hi'
  simp only [List.get_eq_getElem] at hgroup hshown
  rw [hbody] at hshown
  refine ⟨as, as[i], ?_, List.getElem?_eq_getElem hi', fun hfree => ?_, fun hfree => ?_⟩
  · rw [List.getElem?_eq_getElem hk', hgroup]
  · obtain ⟨o, ho, -, hcarries⟩ := hshown.exposes false hfree
    have hword : (o.within (as.map Alias.name)).word = .name (.user x) := hcarries.eq_bare
    refine ⟨o.within (as.map Alias.name), ?_, hword, ?_⟩
    · rw [Ty.occurrences_eq_map]
      exact List.mem_map_of_mem ho
    · have hmem : .user x ∈ (o.within (as.map Alias.name)).binders :=
        List.mem_append_right _ (user_mem_names has hlet)
      rw [binder?_of_plain hword hplain, if_pos hmem]
  · obtain ⟨o, ho, -, hcarries⟩ := hshown.exposes true hfree
    obtain ⟨f, hf, hcalls, o, ho, hword, hbinders⟩ := hcarries.exists_calls ho rfl
    rw [← hlifted] at hf hcalls
    refine ⟨f, hf, hcalls, o, ho, hword, ?_⟩
    rw [binder?_of_plain hword hplain, if_neg hbinders]

/-- A section with a let that a lambda, an arm and a further statement use. -/
def closingOver : Section where
  pos := ⟨1, 1⟩
  name := "s"
  body :=
    [.letDecl ⟨1, 9⟩ "x" (.number ⟨1, 17⟩ "1"),
     .letDecl ⟨2, 3⟩ "f" (.lambda ⟨2, 11⟩ [.mk ⟨2, 12⟩ "y" none]
       (.matching ⟨2, 18⟩ (.ident ⟨2, 24⟩ "y")
         [.mk ⟨2, 28⟩ (.infer ⟨2, 28⟩ "z" none) (.ident ⟨2, 39⟩ "x")])),
     .expr ⟨3, 3⟩ (.ident ⟨3, 3⟩ "x")]

theorem closingOver_let_seen :
    ∃ m, Program.generate ⟨[.sectionOf closingOver]⟩ = .ok m ∧
      (∃ f ∈ m.lifted, ∃ o ∈ f.body.occurrences [],
        o.word = .name (.user "x") ∧ o.binder? = none) ∧
      ∃ as a, m.items[0]? = some (.group "s" as) ∧ as[2]? = some a ∧
        ∃ o ∈ a.value.occurrences (as.map Alias.name),
          o.word = .name (.user "x") ∧ o.binder? = some (.user "x") := by
  have hplain : ¬ IsGenerated "x" := fun h => absurd h.underscore_mem (by decide)
  obtain ⟨m, hm⟩ : ∃ m, Program.generate ⟨[.sectionOf closingOver]⟩ = .ok m := ⟨_, rfl⟩
  obtain ⟨_, _, -, -, -, hinside⟩ :=
    section_let_seen_outside_closures_only hm (k := 0) (i := 1) rfl rfl (by decide) hplain
  obtain ⟨as, a, has, ha, houtside, -⟩ :=
    section_let_seen_outside_closures_only hm (k := 0) (i := 2) rfl rfl (by decide) hplain
  obtain ⟨f, hf, -, hbare⟩ := hinside (by decide)
  exact ⟨m, hm, ⟨f, hf, hbare⟩, as, a, has, ha, houtside (by decide)⟩

/-- A section with a let and a lambda that uses it. -/
def lambdaBehindLet : Section where
  pos := ⟨1, 1⟩
  name := "s"
  body :=
    [.letDecl ⟨1, 9⟩ "x" (.number ⟨1, 17⟩ "1"),
     .letDecl ⟨1, 20⟩ "f" (.lambda ⟨1, 28⟩ [.mk ⟨1, 29⟩ "y" none] (.ident ⟨1, 35⟩ "x"))]

/-- The lambda becomes a top-level interface whose result is the bare name of the let, and its
closure takes nothing along. -/
theorem lambdaBehindLet_misses_let :
    ∃ m, Program.generate ⟨[.sectionOf lambdaBehindLet]⟩ = .ok m ∧
      m.lifted = [⟨.lambda 1, .name (.user "x")⟩] ∧
      m.items = [.group "s" [⟨.user "x", .number "1"⟩, ⟨.user "f", .closure (.lambda 1) []⟩]] :=
  ⟨_, rfl, rfl, rfl⟩

end TypeForge
