import TypeForge.Proofs.Output.Reader
import TypeForge.Proofs.Parser.Inherits

/-!
# Literals that are read as they were written

Texts and code are written into a template literal as they are.  They are read back exactly if
nothing in the texts has a meaning to the reader.

That is enough: the reader takes such a text as it stands and is in text again behind a
substitution.  It is necessary as well.  A text that opens a substitution too early is read as a
shorter one.  An escape takes two characters at least and gives one at most, so a text with one is
read as a shorter text too, unless the escape reaches over the end of the text; then the reader
finds there what cannot be in the text.
-/

namespace TypeForge.TypeScript

/-- A part of a template literal as it is written. -/
def Chunk.source : Chunk → List Char
  | .text cs => cs
  | .substitution code => '$' :: '\x7b' :: code ++ ['\x7d']

/-- The template literal of the given parts. -/
def literalOf (chunks : List Chunk) : List Char := '\x60' :: (chunks.flatMap Chunk.source ++ ['\x60'])

/-- Texts as they are cut out of a template string, with code between any two of them. -/
inductive Written : List Chunk → Prop where
  | last {text : List Char} (htext : CutText text) : Written [.text text]
  | more {text : List Char} {chunks : List Chunk} (code : List Char) (htext : CutText text)
      (hchunks : Written chunks) : Written (.text text :: .substitution code :: chunks)

/-! ## Reading what has no meaning -/

theorem foldlM_append_eq_some {r r' : Reader} {cs cs' : List Char} :
    (cs ++ cs').foldlM Reader.step r = some r' ↔
      ∃ r₁, cs.foldlM Reader.step r = some r₁ ∧ cs'.foldlM Reader.step r₁ = some r' := by
  rw [List.foldlM_append]
  exact Option.bind_eq_some_iff

theorem foldlM_cons_eq_some {r r' : Reader} {c : Char} {cs : List Char} :
    (c :: cs).foldlM Reader.step r = some r' ↔
      ∃ r₁, r.step c = some r₁ ∧ cs.foldlM Reader.step r₁ = some r' := by
  rw [List.foldlM_cons]
  exact Option.bind_eq_some_iff

namespace TextPlace

variable {place : TextPlace}

theorem IsPlain.move_backtick (h : place.IsPlain) :
    place.move '\x60' = some .ends ∧ place.resolved '\x60' = place.pending := by
  rcases h with rfl | rfl
  · exact ⟨rfl, rfl⟩
  · exact ⟨rfl, rfl⟩

theorem IsPlain.move_dollar (h : place.IsPlain) :
    place.move '$' = some (.on dollar) ∧ place.resolved '$' = place.pending := by
  rcases h with rfl | rfl
  · exact ⟨rfl, rfl⟩
  · exact ⟨rfl, rfl⟩

theorem IsPlain.move_backslash (h : place.IsPlain) :
    place.move '\\' = some (.on (escape [])) ∧ place.resolved '\\' = place.pending := by
  rcases h with rfl | rfl
  · exact ⟨rfl, rfl⟩
  · exact ⟨rfl, rfl⟩

end TextPlace

section

variable {place : TextPlace} {chunks : List Chunk} {current tail : List Char} {r : Reader}

/-- A backtick ends the literal. -/
theorem read_backtick (h : place.IsPlain) :
    Reader.step ⟨.text place, [], chunks, current⟩ '\x60' =
      some ⟨.closed, [], chunks ++ [.text (current ++ place.pending)], []⟩ := by
  rw [step_ends h.move_backtick.1, h.move_backtick.2]

/-- A mark opens a substitution. -/
theorem read_mark (h : place.IsPlain) :
    ['$', '\x7b'].foldlM Reader.step ⟨.text place, [], chunks, current⟩ =
      some ⟨.code, [.substitution], chunks ++ [.text (current ++ place.pending)], []⟩ := by
  refine foldlM_cons_eq_some.2 ⟨_, step_on h.move_dollar.1, foldlM_cons_eq_some.2 ⟨_, step_opens rfl, ?_⟩⟩
  rw [h.move_dollar.2]
  simp [TextPlace.resolved]

/-- Code is read up to the brace that closes the substitution. -/
theorem read_code {code : List Char} (h : Skips code) :
    (code ++ ['\x7d']).foldlM Reader.step ⟨.code, [.substitution], chunks, []⟩ =
      some ⟨.text .plain, [], chunks ++ [.substitution code], []⟩ :=
  foldlM_append_eq_some.2 ⟨_, h .substitution [] chunks [], rfl⟩

end

/-- A text that has no meaning is read up to a backtick or a mark behind it. -/
theorem Verbatim.read {text : List Char} (h : Verbatim text) (chunks : List Chunk) :
    (text ++ ['\x60']).foldlM Reader.step ⟨.text .plain, [], chunks, []⟩ =
        some ⟨.closed, [], chunks ++ [.text text], []⟩ ∧
      (text ++ ['$', '\x7b']).foldlM Reader.step ⟨.text .plain, [], chunks, []⟩ =
        some ⟨.code, [.substitution], chunks ++ [.text text], []⟩ := by
  obtain ⟨place, hplace, hown, -⟩ := read_verbatim (.inl rfl) h
  obtain ⟨current, hrun, hcurrent⟩ := hown chunks []
  have htext : current ++ place.pending = text := by simpa [TextPlace.pending] using hcurrent
  constructor
  · refine foldlM_append_eq_some.2 ⟨_, hrun, foldlM_cons_eq_some.2 ⟨_, read_backtick hplace, ?_⟩⟩
    rw [htext]
    rfl
  · refine foldlM_append_eq_some.2 ⟨_, hrun, ?_⟩
    rw [read_mark hplace, htext]

theorem flatMap_source_more (text code : List Char) (chunks : List Chunk) :
    (Chunk.text text :: .substitution code :: chunks).flatMap Chunk.source ++ ['\x60'] =
      text ++ ['$', '\x7b'] ++ ((code ++ ['\x7d']) ++ (chunks.flatMap Chunk.source ++ ['\x60'])) := by
  simp [Chunk.source]

/-- **Parts whose texts have no meaning are read as they were written.** -/
theorem Written.read {chunks : List Chunk} (h : Written chunks)
    (hverbatim : ∀ text, .text text ∈ chunks → Verbatim text)
    (hskips : ∀ code, .substitution code ∈ chunks → Skips code) (before : List Chunk) :
    (chunks.flatMap Chunk.source ++ ['\x60']).foldlM Reader.step ⟨.text .plain, [], before, []⟩ =
      some ⟨.closed, [], before ++ chunks, []⟩ := by
  induction h generalizing before with
  | @last text htext =>
    rw [List.flatMap_singleton]
    exact ((hverbatim text (by simp)).read before).1
  | @more text chunks code htext hchunks ih =>
    have hrest := ih (fun t ht => hverbatim t (by simp [ht])) (fun c hc => hskips c (by simp [hc]))
      (before ++ [.text text] ++ [.substitution code])
    rw [flatMap_source_more]
    refine foldlM_append_eq_some.2 ⟨_, ((hverbatim text (by simp)).read before).2, ?_⟩
    refine foldlM_append_eq_some.2 ⟨_, read_code (hskips code (by simp)), ?_⟩
    rw [hrest]
    simp

/-! ## What an escape leaves -/

/-- An escape gives one character at most. -/
theorem length_le_of_stands {seen text : List Char} (h : escapeOf seen = .stands text) : text.length ≤ 1 := by
  have hpoint {digits : List Char} (h : codePoint digits = .stands text) : text.length ≤ 1 := by
    unfold codePoint at h
    split at h
    · split at h
      · cases h
        exact Nat.le_refl 1
      · cases h
    · cases h
  have hsome {digits : List Char} : someDigits digits ≠ .stands text := by
    unfold someDigits
    split <;> simp
  have hsimple {c : Char} (h : simpleEscape c = .stands text) : text.length ≤ 1 := by
    unfold simpleEscape at h
    split at h
    · cases h
      exact Nat.le_refl 1
    · split at h
      · cases h
        exact Nat.zero_le 1
      · split at h
        · cases h
        · cases h
          exact Nat.le_refl 1
  unfold escapeOf at h
  split at h
  · split at h
    · exact hpoint h
    · exact absurd h hsome
  · split at h
    · exact hpoint h
    · exact absurd h hsome
  · split at h
    · exact hpoint h
    · exact absurd h hsome
  · exact hsimple h
  · cases h

/-- Neither a backtick nor a dollar sign completes an escape that is not complete. -/
theorem escapeOf_of_incomplete {seen : List Char} (h : escapeOf seen = .incomplete) {c : Char}
    (hc : c = '\x60' ∨ c = '$') : escapeOf (seen ++ [c]) = .malformed := by
  have hvalue : hexValue? c = none := by rcases hc with rfl | rfl <;> rfl
  have hpoint (digits : List Char) : codePoint (digits ++ [c]) = .malformed := by
    unfold codePoint
    cases hdigits : digits.foldlM (fun n c => (hexValue? c).map (16 * n + ·)) 0 with
    | none => simp [List.foldlM_append, hdigits]
    | some n => simp [List.foldlM_append, hdigits, hvalue]
  have hsome (digits : List Char) : someDigits (digits ++ [c]) = .malformed := by
    simp [someDigits, hvalue]
  have hsimple (d : Char) : simpleEscape d ≠ .incomplete := by
    unfold simpleEscape
    split
    · simp
    · split
      · simp
      · split <;> simp
  unfold escapeOf at h
  split at h
  · rw [List.cons_append, escapeOf]
    split
    · exact hpoint _
    · exact hsome _
  · next digits =>
    have hlast : (digits ++ [c]).getLast? ≠ some '\x7d' := by
      rcases hc with rfl | rfl <;> simp
    rw [List.cons_append, List.cons_append, escapeOf, if_neg hlast]
    exact hsome digits
  · next digits hbrace =>
    have hbrace' : ∀ rest, digits ++ [c] = '\x7b' :: rest → False := by
      intro rest heq
      cases digits with
      | nil => rcases hc with rfl | rfl <;> cases heq
      | cons d digits => exact hbrace digits (by rw [(List.cons.inj heq).1])
    rw [List.cons_append, escapeOf]
    · split
      · exact hpoint _
      · exact hsome _
    · exact hbrace'
  · exact absurd h (hsimple _)
  · cases h

/-- Behind a backslash, an escape is not complete. -/
def TextPlace.Sound (place : TextPlace) : Prop :=
  ∀ seen, place = .escape seen → seen = [] ∨ escapeOf seen = .incomplete

namespace TextPlace

variable {place place' : TextPlace} {c : Char}

/-- What a move within a text can be. -/
theorem move_eq_on (h : place.move c = some (.on place')) :
    (place.IsPlain ∧ plainMove c = .on place' ∧ place.resolved c = place.pending ++ plainText c) ∨
      ∃ seen, place = escape seen ∧
        ((place' = escape (seen ++ [c]) ∧ escapeOf (seen ++ [c]) = .incomplete ∧ place.resolved c = []) ∨
          (place' = plain ∧ escapeOf (seen ++ [c]) = .stands (place.resolved c))) := by
  cases place with
  | plain => exact .inl ⟨.inl rfl, Option.some.inj h, rfl⟩
  | dollar =>
    by_cases hc : c = '\x7b'
    · rw [TextPlace.move, if_pos hc] at h
      cases h
    · rw [TextPlace.move, if_neg hc] at h
      rw [resolved, if_neg hc]
      exact .inl ⟨.inr rfl, Option.some.inj h, rfl⟩
  | escape seen =>
    refine .inr ⟨seen, rfl, ?_⟩
    rw [TextPlace.move] at h
    cases hescape : escapeOf (seen ++ [c]) with
    | incomplete =>
      rw [hescape] at h
      cases h
      exact .inl ⟨rfl, rfl, by rw [resolved, hescape]⟩
    | stands text =>
      rw [hescape] at h
      cases h
      exact .inr ⟨rfl, by rw [resolved, hescape]⟩
    | malformed =>
      rw [hescape] at h
      cases h

theorem plainMove_eq_on (h : plainMove c = .on place') :
    (c = '$' ∧ place' = dollar) ∨ (c = '\\' ∧ place' = escape []) ∨
      (c ≠ '\x60' ∧ c ≠ '$' ∧ c ≠ '\\' ∧ place' = plain) := by
  unfold plainMove at h
  grind

/-- Escapes that are not complete are the only ones the reader waits for. -/
theorem sound_of_move (h : place.move c = some (.on place')) : place'.Sound := by
  rintro seen rfl
  rcases move_eq_on h with ⟨-, hmove, -⟩ | ⟨seen', -, ⟨hplace, hincomplete, -⟩ | ⟨hplace, -⟩⟩
  · rcases plainMove_eq_on hmove with ⟨-, hplace⟩ | ⟨-, hplace⟩ | ⟨-, -, -, hplace⟩
    · cases hplace
    · cases hplace
      exact .inl rfl
    · cases hplace
  · cases hplace
    exact .inr hincomplete
  · cases hplace

/-- Only a backslash starts an escape. -/
theorem isPlain_of_move (h : place.move c = some (.on place')) (hplace : place.IsPlain) (hc : c ≠ '\\') :
    place'.IsPlain := by
  rcases move_eq_on h with ⟨-, hmove, -⟩ | ⟨seen, rfl, -⟩
  · rcases plainMove_eq_on hmove with ⟨-, rfl⟩ | ⟨rfl, -⟩ | ⟨-, -, -, rfl⟩
    · exact .inr rfl
    · exact absurd rfl hc
    · exact .inl rfl
  · rcases hplace with h | h <;> cases h

/-- The text that is certain or waits grows by one character at most. -/
theorem length_of_on (h : place.move c = some (.on place')) :
    (place.resolved c).length + place'.pending.length ≤ place.pending.length + 1 := by
  rcases move_eq_on h with ⟨-, hmove, hresolved⟩ | ⟨seen, rfl, ⟨rfl, -, hresolved⟩ | ⟨rfl, hstands⟩⟩
  · rw [hresolved, List.length_append]
    rcases plainMove_eq_on hmove with ⟨rfl, rfl⟩ | ⟨rfl, rfl⟩ | ⟨h₁, h₂, h₃, rfl⟩
    · simp [plainText, pending]
    · simp [plainText, pending]
    · simp [plainText, pending, h₁, h₂, h₃]
  · rw [hresolved]
    simp [pending]
  · have hlength := length_le_of_stands hstands
    simpa [pending] using hlength

/-- At the end of a text nothing is added to what waited. -/
theorem length_of_end (h : place.move c = some .ends ∨ place.move c = some .opens) :
    (place.resolved c).length ≤ place.pending.length := by
  have hplain : plainMove c = .ends ∨ plainMove c = .opens → plainText c = [] := by
    unfold plainMove plainText
    grind
  cases place with
  | plain =>
    rw [resolved, hplain (h.imp Option.some.inj Option.some.inj)]
    exact Nat.zero_le _
  | dollar =>
    by_cases hc : c = '\x7b'
    · simp [resolved, hc]
    · simp only [TextPlace.move, if_neg hc] at h
      rw [resolved, if_neg hc, hplain (h.imp Option.some.inj Option.some.inj)]
      exact Nat.le_refl 1
  | escape seen =>
    simp only [TextPlace.move] at h
    cases hescape : escapeOf (seen ++ [c]) <;> simp [hescape] at h

end TextPlace

/-! ## Runs of the reader -/

/-- Parts that are complete stay. -/
theorem prefix_of_step {r r' : Reader} {c : Char} (h : r.step c = some r') : r.chunks <+: r'.chunks := by
  unfold Reader.step at h
  split at h
  · obtain ⟨move, -, rfl⟩ := Option.map_eq_some_iff.1 h
    cases move with
    | on place' => exact List.prefix_refl _
    | ends | opens => exact List.prefix_append _ _
  · cases h
  · obtain ⟨⟨place', openings'⟩, -, rfl⟩ := Option.map_eq_some_iff.1 h
    cases openings' with
    | nil => exact List.prefix_append _ _
    | cons opening openings' => exact List.prefix_refl _

theorem prefix_of_read {r r' : Reader} {cs : List Char} (h : cs.foldlM Reader.step r = some r') :
    r.chunks <+: r'.chunks := by
  induction cs generalizing r with
  | nil =>
    cases h
    exact List.prefix_refl _
  | cons c cs ih =>
    obtain ⟨r₁, hstep, hrest⟩ := foldlM_cons_eq_some.1 h
    exact (prefix_of_step hstep).trans (ih hrest)

section

variable {place : TextPlace} {chunks : List Chunk} {current : List Char} {r : Reader}

/-- What the reader does with a character of a text of the literal. -/
theorem step_cases {c : Char} (h : Reader.step ⟨.text place, [], chunks, current⟩ c = some r) :
    (∃ place', place.move c = some (.on place') ∧
      r = ⟨.text place', [], chunks, current ++ place.resolved c⟩) ∨
    (place.move c = some .ends ∨ place.move c = some .opens) ∧
      r.chunks = chunks ++ [.text (current ++ place.resolved c)] := by
  obtain ⟨move, hmove, rfl⟩ := Option.map_eq_some_iff.1 h
  cases move with
  | on place' => exact .inl ⟨place', hmove, rfl⟩
  | ends => exact .inr ⟨.inl hmove, rfl⟩
  | opens => exact .inr ⟨.inr hmove, rfl⟩

/-- What is read of a text is the start of it. -/
theorem prefix_of_text {cs text : List Char} {more : List Chunk}
    (h : cs.foldlM Reader.step ⟨.text place, [], chunks, current⟩ = some r)
    (hchunks : r.chunks = chunks ++ .text text :: more) : current <+: text := by
  induction cs generalizing place current with
  | nil =>
    cases h
    have hlength := congrArg List.length hchunks
    simp at hlength
  | cons c cs ih =>
    obtain ⟨r₁, hstep, hrest⟩ := foldlM_cons_eq_some.1 h
    rcases step_cases hstep with ⟨place', -, rfl⟩ | ⟨-, hr₁⟩
    · exact (List.prefix_append _ _).trans (ih hrest)
    · have hprefix := prefix_of_read hrest
      rw [hr₁, hchunks, List.prefix_append_right_inj, List.cons_prefix_cons] at hprefix
      rw [← Chunk.text.inj hprefix.1]
      exact List.prefix_append _ _

/-- A text that ends before all is read of it is shorter than what is read. -/
theorem length_lt_of_text {cs : List Char}
    (h : cs.foldlM Reader.step ⟨.text place, [], chunks, current⟩ = some r) (hne : r.chunks ≠ chunks) :
    ∃ text, chunks ++ [.text text] <+: r.chunks ∧
      text.length < current.length + place.pending.length + cs.length := by
  induction cs generalizing place current with
  | nil =>
    cases h
    exact absurd rfl hne
  | cons c cs ih =>
    obtain ⟨r₁, hstep, hrest⟩ := foldlM_cons_eq_some.1 h
    rcases step_cases hstep with ⟨place', hmove, rfl⟩ | ⟨hmove, hr₁⟩
    · obtain ⟨text, hprefix, hlength⟩ := ih hrest
      have hgrows := TextPlace.length_of_on hmove
      refine ⟨text, hprefix, ?_⟩
      rw [List.length_append] at hlength
      rw [List.length_cons]
      omega
    · have hprefix := prefix_of_read hrest
      have hends := TextPlace.length_of_end hmove
      refine ⟨_, hr₁ ▸ hprefix, ?_⟩
      rw [List.length_append, List.length_cons]
      omega

/-- **The reader stays in a text**: it is certain of no more than it has read, and only a backslash
starts an escape. -/
theorem text_of_read {cs : List Char}
    (h : cs.foldlM Reader.step ⟨.text place, [], chunks, current⟩ = some r) (hsame : r.chunks = chunks)
    (hplace : place.Sound) :
    ∃ place' current', r = ⟨.text place', [], chunks, current'⟩ ∧ place'.Sound ∧
      current'.length + place'.pending.length ≤ current.length + place.pending.length + cs.length ∧
      (place.IsPlain → '\\' ∉ cs → place'.IsPlain) := by
  induction cs generalizing place current with
  | nil =>
    cases h
    exact ⟨place, current, rfl, hplace, Nat.le_refl _, fun h _ => h⟩
  | cons c cs ih =>
    obtain ⟨r₁, hstep, hrest⟩ := foldlM_cons_eq_some.1 h
    rcases step_cases hstep with ⟨place₁, hmove, rfl⟩ | ⟨-, hr₁⟩
    · obtain ⟨place', current', hr, hsound, hlength, hplain⟩ := ih hrest (TextPlace.sound_of_move hmove)
      have hgrows := TextPlace.length_of_on hmove
      refine ⟨place', current', hr, hsound, ?_, fun hp hbackslash => ?_⟩
      · rw [List.length_append] at hlength
        rw [List.length_cons]
        omega
      · rw [List.mem_cons, not_or] at hbackslash
        exact hplain (TextPlace.isPlain_of_move hmove hp (Ne.symm hbackslash.1)) hbackslash.2
    · have hprefix := prefix_of_read hrest
      rw [hr₁, hsame] at hprefix
      have hlength := hprefix.length_le
      rw [List.length_append] at hlength
      exact absurd hlength (Nat.not_succ_le_self _)

/-- The first of two dollar signs may end an escape, so the second one opens a substitution with a
brace behind it. -/
theorem chunks_ne_of_dollars {current' : List Char} {place' : TextPlace} (hplace : place.Sound) :
    ['$', '$', '\x7b'].foldlM Reader.step ⟨.text place, [], chunks, current⟩ ≠
      some ⟨.text place', [], chunks, current'⟩ := by
  intro h
  obtain ⟨r₁, hstep, hrest⟩ := foldlM_cons_eq_some.1 h
  have hplain : ∃ place₁ current₁, place₁.IsPlain ∧ r₁ = ⟨.text place₁, [], chunks, current₁⟩ := by
    cases place with
    | plain =>
      cases hstep
      exact ⟨.dollar, _, .inr rfl, rfl⟩
    | dollar =>
      cases hstep
      exact ⟨.dollar, _, .inr rfl, rfl⟩
    | escape seen =>
      rcases hplace seen rfl with rfl | hincomplete
      · cases hstep
        exact ⟨.plain, _, .inl rfl, rfl⟩
      · simp [Reader.step, TextPlace.move, escapeOf_of_incomplete hincomplete (.inr rfl)] at hstep
  obtain ⟨place₁, current₁, hplace₁, rfl⟩ := hplain
  rw [read_mark hplace₁] at hrest
  cases hrest

end

section

variable {text rest : List Char} {chunks more : List Chunk} {r : Reader}

/-- A text that is read as it was written is read to its end as a text. -/
theorem text_read_through
    (h : (text ++ rest).foldlM Reader.step ⟨.text .plain, [], chunks, []⟩ = some r)
    (hchunks : r.chunks = chunks ++ .text text :: more) :
    ∃ r₁, text.foldlM Reader.step ⟨.text .plain, [], chunks, []⟩ = some r₁ ∧ r₁.chunks = chunks ∧
      rest.foldlM Reader.step r₁ = some r := by
  obtain ⟨r₁, htext, hrest⟩ := foldlM_append_eq_some.1 h
  refine ⟨r₁, htext, ?_, hrest⟩
  by_contra hne
  obtain ⟨text', hprefix, hlength⟩ := length_lt_of_text htext hne
  have hwhole := hprefix.trans (prefix_of_read hrest)
  rw [hchunks, List.prefix_append_right_inj, List.cons_prefix_cons] at hwhole
  rw [Chunk.text.inj hwhole.1] at hlength
  simp [TextPlace.pending] at hlength

/-- Where the reader is inside of a text that is read as it was written. -/
theorem text_read_within {before behind : List Char}
    (h : (before ++ behind).foldlM Reader.step ⟨.text .plain, [], chunks, []⟩ = some r)
    (hsame : r.chunks = chunks) :
    ∃ place current, before.foldlM Reader.step ⟨.text .plain, [], chunks, []⟩ =
        some ⟨.text place, [], chunks, current⟩ ∧
      behind.foldlM Reader.step ⟨.text place, [], chunks, current⟩ = some r ∧ place.Sound ∧
      current.length + place.pending.length ≤ before.length ∧ ('\\' ∉ before → place.IsPlain) := by
  obtain ⟨r₁, hbefore, hbehind⟩ := foldlM_append_eq_some.1 h
  have hmiddle : r₁.chunks = chunks :=
    List.Sublist.antisymm (hsame ▸ (prefix_of_read hbehind).sublist) (prefix_of_read hbefore).sublist
  obtain ⟨place, current, rfl, hsound, hlength, hplain⟩ :=
    text_of_read hbefore hmiddle (fun seen hseen => by cases hseen)
  refine ⟨place, current, hbefore, hbehind, hsound, ?_, hplain (.inl rfl)⟩
  simpa [TextPlace.pending] using hlength

/-- A cut text that is read as text has no mark: before a mark it has another dollar sign. -/
theorem no_mark_of_read (hcut : CutText text)
    (h : text.foldlM Reader.step ⟨.text .plain, [], chunks, []⟩ = some r) (hsame : r.chunks = chunks) :
    ¬ ['$', '\x7b'] <:+: text := by
  rintro ⟨before, behind, rfl⟩
  obtain ⟨front, rfl⟩ : ∃ front, before = front ++ ['$'] :=
    List.getLast?_eq_some_iff.1 (hcut.mark before behind (by simp))
  have hsplit : front ++ ['$'] ++ ['$', '\x7b'] ++ behind = front ++ (['$', '$', '\x7b'] ++ behind) := by simp
  rw [hsplit] at h
  obtain ⟨place, current, hfront, -, hsound, -, -⟩ := text_read_within h hsame
  rw [← List.append_assoc] at h
  obtain ⟨place', current', hmark, -, -, -, -⟩ := text_read_within h hsame
  obtain ⟨r₁, hr₁, hdollars⟩ := foldlM_append_eq_some.1 hmark
  rw [hfront] at hr₁
  cases hr₁
  exact chunks_ne_of_dollars hsound hdollars

/-- A text with a backslash gives less text than it has. -/
theorem length_lt_of_backslash (hbackslash : '\\' ∈ text)
    (h : text.foldlM Reader.step ⟨.text .plain, [], chunks, []⟩ = some r) (hsame : r.chunks = chunks) :
    ∃ place current, r = ⟨.text place, [], chunks, current⟩ ∧ place.Sound ∧
      current.length + place.pending.length < text.length := by
  obtain ⟨before, behind, rfl, hfirst⟩ := List.eq_append_cons_of_mem hbackslash
  obtain ⟨place, current, -, hrest, -, hlength, hplain⟩ := text_read_within h hsame
  have hplace := hplain hfirst
  obtain ⟨r₁, hstep, hbehind⟩ := foldlM_cons_eq_some.1 hrest
  rw [step_on hplace.move_backslash.1, hplace.move_backslash.2] at hstep
  cases hstep
  obtain ⟨place', current', rfl, hsound, hlength', -⟩ :=
    text_of_read hbehind hsame (fun seen hseen => .inl (TextPlace.escape.inj hseen).symm)
  refine ⟨place', current', rfl, hsound, ?_⟩
  rw [List.length_append, TextPlace.pending, List.length_nil] at hlength'
  rw [List.length_append, List.length_cons]
  omega

/-- Outside of escapes, a text ends with what is read of it. -/
theorem text_eq_of_isPlain {place : TextPlace} (hplace : place.IsPlain) {current tail : List Char}
    (hrest : rest = '\x60' :: tail ∨ rest = '$' :: '\x7b' :: tail)
    (h : rest.foldlM Reader.step ⟨.text place, [], chunks, current⟩ = some r)
    (hchunks : r.chunks = chunks ++ .text text :: more) : text = current ++ place.pending := by
  have hread : ∃ r₁ : Reader, r₁.chunks = chunks ++ [.text (current ++ place.pending)] ∧
      tail.foldlM Reader.step r₁ = some r := by
    rcases hrest with rfl | rfl
    · obtain ⟨r₁, hstep, htail⟩ := foldlM_cons_eq_some.1 h
      rw [read_backtick hplace] at hstep
      cases hstep
      exact ⟨_, rfl, htail⟩
    · have hsplit : (['$', '\x7b'] ++ tail).foldlM Reader.step ⟨.text place, [], chunks, current⟩ = some r := h
      obtain ⟨r₁, hmark, htail⟩ := foldlM_append_eq_some.1 hsplit
      rw [read_mark hplace] at hmark
      cases hmark
      exact ⟨_, rfl, htail⟩
  obtain ⟨r₁, hr₁, htail⟩ := hread
  have hprefix := prefix_of_read htail
  rw [hr₁, hchunks, List.prefix_append_right_inj, List.cons_prefix_cons] at hprefix
  exact (Chunk.text.inj hprefix.1).symm

/-- An escape that reaches over the end of a text leaves there what no cut text has. -/
theorem mark_of_escape {seen : List Char} (hsound : (TextPlace.escape seen).Sound) {current tail : List Char}
    (hrest : rest = '\x60' :: tail ∨ rest = '$' :: '\x7b' :: tail)
    (h : rest.foldlM Reader.step ⟨.text (.escape seen), [], chunks, current⟩ = some r)
    (hchunks : r.chunks = chunks ++ .text text :: more) : '\x60' ∈ text ∨ ['$', '\x7b'] <:+: text := by
  rcases hsound seen rfl with rfl | hincomplete
  · rcases hrest with rfl | rfl
    · have htail : tail.foldlM Reader.step ⟨.text .plain, [], chunks, current ++ ['\x60']⟩ = some r := h
      exact .inl ((prefix_of_text htail hchunks).subset (by simp))
    · have htail : tail.foldlM Reader.step ⟨.text .plain, [], chunks, current ++ ['$'] ++ ['\x7b']⟩ = some r := h
      refine .inr (List.IsInfix.trans ⟨current, [], ?_⟩ (prefix_of_text htail hchunks).isInfix)
      simp
  · have hmalformed (c : Char) (hc : c = '\x60' ∨ c = '$') :
        Reader.step ⟨.text (.escape seen), [], chunks, current⟩ c = none := by
      simp [Reader.step, TextPlace.move, escapeOf_of_incomplete hincomplete hc]
    obtain ⟨c, cs, hc, rfl⟩ : ∃ c cs, (c = '\x60' ∨ c = '$') ∧ rest = c :: cs := by
      rcases hrest with rfl | rfl
      · exact ⟨_, _, .inl rfl, rfl⟩
      · exact ⟨_, _, .inr rfl, rfl⟩
    obtain ⟨r₁, hstep, -⟩ := foldlM_cons_eq_some.1 h
    rw [hmalformed c hc] at hstep
    cases hstep

/-- **Only a text without a meaning is read as it was written.** -/
theorem verbatim_of_read (hcut : CutText text) {tail : List Char}
    (hrest : rest = '\x60' :: tail ∨ rest = '$' :: '\x7b' :: tail)
    (h : (text ++ rest).foldlM Reader.step ⟨.text .plain, [], chunks, []⟩ = some r)
    (hchunks : r.chunks = chunks ++ .text text :: more) : Verbatim text := by
  obtain ⟨r₁, htext, hsame, hend⟩ := text_read_through h hchunks
  have hmark := no_mark_of_read hcut htext hsame
  refine ⟨hcut.backtick, fun hbackslash => ?_, hmark⟩
  obtain ⟨place, current, rfl, hsound, hlength⟩ := length_lt_of_backslash hbackslash htext hsame
  have hplain (hplace : place.IsPlain) : False := by
    rw [text_eq_of_isPlain hplace hrest hend hchunks, List.length_append] at hlength
    exact Nat.lt_irrefl _ hlength
  cases place with
  | plain => exact hplain (.inl rfl)
  | dollar => exact hplain (.inr rfl)
  | escape seen =>
    rcases mark_of_escape hsound hrest hend hchunks with hbacktick | hopens
    · exact hcut.backtick hbacktick
    · exact hmark hopens

end

/-! ## Whole literals -/

/-- Only a closing brace closes something, and behind a substitution there is text. -/
theorem openings_of_move {place place' : Place} {openings openings' : List Opening} {c : Char}
    (h : place.move openings c = some (place', openings')) :
    openings <:+ openings' ∨
      c = '\x7d' ∧ (openings = .brace :: openings' ∨ openings = .substitution :: openings' ∧ place' = .text .plain) := by
  have hcode (h : codeMove openings c = some (place', openings')) : openings <:+ openings' ∨
      c = '\x7d' ∧ (openings = .brace :: openings' ∨
        openings = .substitution :: openings' ∧ place' = .text .plain) := by
    have hsuffix (opening : Opening) : openings <:+ opening :: openings := List.suffix_cons _ _
    have hrefl : openings <:+ openings := List.suffix_refl _
    unfold codeMove at h
    grind
  cases place with
  | text place =>
    obtain ⟨move, -, heq⟩ := Option.map_eq_some_iff.1 h
    cases move <;> cases heq
    · exact .inl (List.suffix_refl _)
    · exact .inl (List.suffix_refl _)
    · exact .inl (List.suffix_cons _ _)
  | code => exact hcode h
  | slash =>
    simp only [Place.move] at h
    split at h
    · cases h
      exact .inl (List.suffix_refl _)
    · split at h
      · cases h
        exact .inl (List.suffix_refl _)
      · exact hcode h
  | lineComment | comment | asterisk | quotedEscape =>
    cases h
    exact .inl (List.suffix_refl _)
  | quoted quote =>
    have hrefl : openings <:+ openings := List.suffix_refl _
    simp only [Place.move] at h
    grind
  | closed => cases h

/-- Inside of a substitution nothing is complete before the brace that closes it. -/
theorem read_inside {place : Place} {opening : Opening} {openings : List Opening} {chunks : List Chunk}
    {current cs : List Char} {r : Reader} (hlast : (opening :: openings).getLast? = some .substitution)
    (h : cs.foldlM Reader.step ⟨place, opening :: openings, chunks, current⟩ = some r) :
    r.chunks = chunks ∨ ∃ code rest, cs = code ++ '\x7d' :: rest ∧
      rest.foldlM Reader.step ⟨.text .plain, [], chunks ++ [.substitution (current ++ code)], []⟩ = some r := by
  induction cs generalizing place opening openings current with
  | nil =>
    cases h
    exact .inl rfl
  | cons c cs ih =>
    obtain ⟨r₁, hstep, hrest⟩ := foldlM_cons_eq_some.1 h
    obtain ⟨⟨place', openings'⟩, hmoves, rfl⟩ := Option.map_eq_some_iff.1 hstep
    have hmove : place.move (opening :: openings) c = some (place', openings') := hmoves
    have hcases := openings_of_move hmove
    cases openings' with
    | nil =>
      rcases hcases with hsuffix | ⟨rfl, hbrace | ⟨-, rfl⟩⟩
      · cases List.eq_nil_of_suffix_nil hsuffix
      · rw [hbrace] at hlast
        cases hlast
      · exact .inr ⟨[], cs, rfl, by simpa using hrest⟩
    | cons opening' openings' =>
      have hlast' : (opening' :: openings').getLast? = some .substitution := by
        rcases hcases with ⟨front, hfront⟩ | ⟨-, heq | ⟨heq, -⟩⟩
        · rw [← hfront, List.getLast?_append, hlast]
          rfl
        · rwa [heq, List.getLast?_cons_cons] at hlast
        · rwa [heq, List.getLast?_cons_cons] at hlast
      rcases ih hlast' hrest with hsame | ⟨code, rest, rfl, hrun⟩
      · exact .inl hsame
      · exact .inr ⟨c :: code, rest, rfl, by simpa using hrun⟩

/-- Code that is read as it was written is read up to the brace behind it. -/
theorem code_read_through {code rest : List Char} {chunks more : List Chunk} {r : Reader}
    (h : (code ++ ['\x7d'] ++ rest).foldlM Reader.step ⟨.code, [.substitution], chunks, []⟩ = some r)
    (hchunks : r.chunks = chunks ++ .substitution code :: more) :
    rest.foldlM Reader.step ⟨.text .plain, [], chunks ++ [.substitution code], []⟩ = some r := by
  rcases read_inside rfl h with hsame | ⟨code', rest', hsplit, hrun⟩
  · rw [hsame] at hchunks
    exact absurd (List.append_cancel_left (hchunks.symm.trans (List.append_nil chunks).symm)) (List.cons_ne_nil _ _)
  · have hprefix := prefix_of_read hrun
    rw [hchunks, List.nil_append, List.prefix_append_right_inj, List.cons_prefix_cons] at hprefix
    obtain rfl := Chunk.substitution.inj hprefix.1
    rw [List.append_assoc] at hsplit
    obtain rfl := (List.cons.inj (List.append_cancel_left hsplit)).2
    exact hrun

/-- Parts that are read as they were written have texts without a meaning. -/
theorem Written.verbatim_of_read {chunks : List Chunk} (h : Written chunks) {before : List Chunk} {r : Reader}
    (hrun : (chunks.flatMap Chunk.source ++ ['\x60']).foldlM Reader.step ⟨.text .plain, [], before, []⟩ = some r)
    (hchunks : r.chunks = before ++ chunks) : ∀ text, .text text ∈ chunks → Verbatim text := by
  induction h generalizing before with
  | @last text htext =>
    rw [List.flatMap_singleton] at hrun
    have hverbatim := TypeScript.verbatim_of_read htext (.inl rfl) hrun hchunks
    intro text' hmem
    cases List.mem_singleton.1 hmem
    exact hverbatim
  | @more text chunks code htext _ ih =>
    rw [flatMap_source_more] at hrun
    obtain ⟨r₁, hr₁, hcode⟩ := foldlM_append_eq_some.1 hrun
    rw [List.append_assoc] at hrun
    have hverbatim := TypeScript.verbatim_of_read htext (.inr rfl) hrun hchunks
    rw [(hverbatim.read before).2] at hr₁
    cases hr₁
    have hmore := ih (code_read_through hcode (by simpa using hchunks)) (by simpa using hchunks)
    intro text' hmem
    simp only [List.mem_cons, Chunk.text.injEq, reduceCtorEq, false_or] at hmem
    rcases hmem with rfl | hmem
    · exact hverbatim
    · exact hmore text' hmem

section

variable {chunks : List Chunk} (h : Written chunks)

include h

/-- **A template literal is read as it was written if its texts have no meaning** and its code is
taken as it stands. -/
theorem Written.readTemplate_eq (hverbatim : ∀ text, .text text ∈ chunks → Verbatim text)
    (hskips : ∀ code, .substitution code ∈ chunks → Skips code) :
    readTemplate (literalOf chunks) = some chunks :=
  Option.bind_eq_some_iff.2 ⟨_, h.read hverbatim hskips [], rfl⟩

/-- **Only if its texts have no meaning is a template literal read as it was written.** -/
theorem Written.verbatim_of_readTemplate (hread : readTemplate (literalOf chunks) = some chunks) :
    ∀ text, .text text ∈ chunks → Verbatim text := by
  obtain ⟨r, hrun, hclosed⟩ := Option.bind_eq_some_iff.1 hread
  have hchunks : r.chunks = [] ++ chunks := by
    split at hclosed
    · exact Option.some.inj hclosed
    · cases hclosed
  exact h.verbatim_of_read hrun hchunks

end

end TypeForge.TypeScript
