import TypeForge.Proofs.Parser.Mirror.Syntax

/-!
# Parsers with the same results

Two parsers coincide if they succeed on the same streams, with the same results; why they fail may
differ.  So each of them follows the other one, and every stream mirrors itself: productions
coincide if their subparsers do, since they follow their subparsers.
-/

namespace TypeForge.Parser

variable {α β : Type} {p q : Parser α} {f g : α → Parser β}

/-- The parsers succeed on the same streams, with the same results. -/
def Coincide (p q : Parser α) : Prop := ∀ s, (p s).toOption = (q s).toOption

theorem Coincide.refl (p : Parser α) : Coincide p p := fun _ => rfl

theorem toOption_run_bind (p : Parser α) (f : α → Parser β) (s : Stream) :
    ((p >>= f) s).toOption = (p s).toOption.bind fun r => (f r.1 r.2).toOption := by
  change (p s >>= fun r => f r.1 r.2).toOption = _
  cases p s with
  | error e => rfl
  | ok r => rfl

theorem Coincide.bind (hp : Coincide p q) (hf : ∀ a, Coincide (f a) (g a)) :
    Coincide (p >>= f) (q >>= g) := by
  intro s
  rw [toOption_run_bind, toOption_run_bind, hp s]
  congr 1
  funext r
  exact hf r.1 r.2

/-- Parsers behind one that they have in common. -/
theorem coincide_behind (p : Parser α) (hf : ∀ a, Coincide (f a) (g a)) :
    Coincide (p >>= f) (p >>= g) :=
  (Coincide.refl p).bind hf

/-- Parsers in front of one that they have in common. -/
theorem Coincide.before (hp : Coincide p q) (f : α → Parser β) : Coincide (p >>= f) (q >>= f) :=
  hp.bind fun a => .refl (f a)

theorem coincide_get {f g : Stream → Parser β} (h : ∀ s, Coincide (f s) (g s)) :
    Coincide (get >>= f) (get >>= g) :=
  fun s => h s s

/-! ## Recursion -/

/-- **Recursive parsers coincide if their steps do**, given that the recursive calls coincide. -/
theorem coincide_fix {step step' : (α → Parser β) → α → Parser β}
    (h : ∀ n, (∀ a, Coincide (below n (fix step a)) (below n (fix step' a))) →
      ∀ a, Coincide (step (fun b => below n (fix step b)) a)
        (step' (fun b => below n (fix step' b)) a))
    (a : α) : Coincide (fix step a) (fix step' a) := by
  intro s
  induction hm : s.size using Nat.strongRecOn generalizing s a with
  | ind m ih =>
    rw [run_fix, run_fix]
    refine h s.size (fun b t => ?_) a s
    by_cases hlt : t.size < s.size
    · rw [run_below hlt, run_below hlt]
      exact ih t.size (hm ▸ hlt) b t rfl
    · rw [below, below, if_neg hlt, if_neg hlt]

/-- Recursive parsers that are always called in the same way. -/
theorem coincide_loop {step step' : (Unit → Parser β) → Unit → Parser β}
    (h : ∀ again again', Coincide (again ()) (again' ()) →
      Coincide (step again ()) (step' again' ())) : Coincide (fix step ()) (fix step' ()) :=
  coincide_fix (fun _ hagain _ => h _ _ (hagain ())) ()

/-! ## Productions -/

/-- A stream mirrors itself. -/
theorem mirroring_eq : Mirroring id Eq where
  current := by
    rintro s _ token rfl hs
    exact hs
  ended := by
    rintro s _ rfl hs kind hkind
    simp [Stream.kind?, hs] at hkind
  next := by
    rintro s _ s' token rfl _ hnext
    exact ⟨s', hnext, rfl⟩
  peek := by
    rintro s _ token n rfl _
    exact ⟨[], (List.append_nil _).symm, itemAhead_nil⟩
  size := by
    rintro s _ s' _ rfl rfl hlt
    exact hlt

/-- Parsers that coincide follow each other. -/
theorem Coincide.mimics (h : Coincide p q) : Mimics Eq id p q := by
  rintro s _ rfl a s' hrun -
  have hsame := h s
  rw [hrun] at hsame
  cases hq : q s with
  | error e =>
    rw [hq] at hsame
    cases hsame
  | ok r =>
    rw [hq] at hsame
    cases hsame
    exact ⟨s', rfl, rfl⟩

theorem Coincide.symm (h : Coincide p q) : Coincide q p := fun s => (h s).symm

theorem coincide_of_mimics (h : Mimics Eq id p q) (h' : Mimics Eq id q p) : Coincide p q := by
  intro s
  cases hp : p s with
  | ok r =>
    obtain ⟨t, hq, rfl⟩ := h rfl r.1 r.2 hp trivial
    rw [hq]
    rfl
  | error e =>
    cases hq : q s with
    | error e' => rfl
    | ok r =>
      obtain ⟨t, hp', -⟩ := h' rfl r.1 r.2 hq trivial
      cases hp.symm.trans hp'

theorem Coincide.needy (h : Coincide p q) (hp : Needy p) : Needy q := by
  intro s hs r hrun
  obtain ⟨t, hrun', -⟩ := h.symm.mimics rfl r.1 r.2 hrun trivial
  exact hp s hs _ hrun'

section

variable {expr expr' : Nat → Parser Expr} (hexpr : ∀ least, Coincide (expr least) (expr' least))
  (hneedy : ∀ least, Needy (expr least))

include hexpr hneedy

/-- **What is made of parsers for expressions coincides if they do.** -/
theorem Coincide.made {make : (Nat → Parser Expr) → Parser α} {g : α → α} (hg : ∀ a, g a = a)
    (hmake : ∀ e e', (∀ n, Mimics Eq (Expr.relocated id) (e n) (e' n)) → (∀ n, Needy (e n)) →
      Mimics Eq g (make e) (make e')) : Coincide (make expr) (make expr') := by
  obtain rfl : g = id := funext hg
  have hid : Expr.relocated id = id := funext Expr.relocated_id
  refine coincide_of_mimics (hmake _ _ (fun n => ?_) hneedy)
    (hmake _ _ (fun n => ?_) fun n => (hexpr n).needy (hneedy n))
  · exact hid ▸ (hexpr n).mimics
  · exact hid ▸ (hexpr n).symm.mimics

theorem coincide_paramList : Coincide (paramList (expr 0)) (paramList (expr' 0)) := by
  refine Coincide.made hexpr hneedy (fun ps => ?_) fun e e' he _ => mimics_paramList mirroring_eq (he 0)
  rw [← relocatedParams_eq_map, relocatedParams_id]

theorem coincide_lambda (pos : Position) : Coincide (lambda pos (expr 0)) (lambda pos (expr' 0)) :=
  Coincide.made hexpr hneedy Expr.relocated_id fun _ _ he _ => mimics_lambda mirroring_eq (he 0) pos

theorem coincide_atom (token : Token) : Coincide (atom token (expr 0)) (atom token (expr' 0)) :=
  Coincide.made hexpr hneedy Expr.relocated_id fun _ _ he hn => mimics_atom mirroring_eq (he 0) (hn 0) token

theorem coincide_operatorTail (least : Nat) (lhs : Expr) :
    Coincide (operatorTail expr least lhs) (operatorTail expr' least lhs) := by
  have htail (e e' : Nat → Parser Expr) (he : ∀ n, Mimics Eq (Expr.relocated id) (e n) (e' n))
      (_ : ∀ n, Needy (e n)) :
      Mimics Eq (Expr.relocated id) (operatorTail e least lhs) (operatorTail e' least lhs) := by
    have htail := mimics_operatorTail mirroring_eq he least lhs
    rwa [lhs.relocated_id] at htail
  exact Coincide.made hexpr hneedy Expr.relocated_id htail

theorem coincide_topLevels : Coincide (topLevels (expr 0)) (topLevels (expr' 0)) := by
  have hitem (token : Token) : Coincide (topLevel token (expr 0)) (topLevel token (expr' 0)) :=
    Coincide.made hexpr hneedy TopLevel.relocated_id fun _ _ he hn =>
      mimics_topLevel mirroring_eq (he 0) (hn 0) token
  refine coincide_loop fun again again' hagain => coincide_get fun s => ?_
  split
  · exact .refl _
  · next token _ => exact (hitem token).bind fun item => hagain.before _

end

theorem coincide_templateParts {expr expr' : Parser Expr} (hexpr : Coincide expr expr') (start : Position) :
    Coincide (templateParts start expr) (templateParts start expr') := by
  refine coincide_loop fun again again' hagain => coincide_behind _ fun piece => ?_
  refine coincide_behind _ fun _ => ?_
  cases piece.2 with
  | backtick => exact .refl _
  | interpolation => exact hexpr.bind fun e => coincide_behind _ fun _ => hagain.before _

end TypeForge.Parser
