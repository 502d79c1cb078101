import TypeForge.Proofs.Parser.Inherits
import TypeForge.Proofs.Parser.Tracks.Syntax

/-!
# Where the nodes of a syntax tree are laid out

A parser goes through a text from left to right, and the nodes of a syntax tree are listed in the
order in which they start.  So what has been listed when a run begins lies in front of the current
token, and what the run adds lies between the current token at its start and the one at its end.
A leaf is a token, so whatever comes behind it starts later.
-/

namespace TypeForge

/-! ## The order of positions -/

namespace Position

variable {p q r : Position}

/-- The position `p` does not come behind `q` in reading order. -/
def NotAfter (p q : Position) : Prop := ¬ q.Before p

theorem notAfter_iff :
    p.NotAfter q ↔ p.line < q.line ∨ p.line = q.line ∧ p.column ≤ q.column := by
  rw [NotAfter, before_iff]
  omega

theorem NotAfter.refl (p : Position) : p.NotAfter p := by
  rw [notAfter_iff]
  omega

theorem NotAfter.trans (h : p.NotAfter q) (h' : q.NotAfter r) : p.NotAfter r := by
  rw [notAfter_iff] at *
  omega

theorem Before.notAfter (h : p.Before q) : p.NotAfter q := by
  rw [notAfter_iff]
  rw [before_iff] at h
  omega

theorem Before.trans_notAfter (h : p.Before q) (h' : q.NotAfter r) : p.Before r := by
  rw [before_iff] at *
  rw [notAfter_iff] at h'
  omega

theorem notAfter_advanceOver (p : Position) (cs : List Char) : p.NotAfter (p.advanceOver cs) := by
  by_cases h : cs = []
  · rw [h]
    exact .refl p
  · exact (before_advanceOver p h).notAfter

end Position

/-! ## Leaves -/

/-- Whether a node is a single token: a name, a number, a string or one of the two types. -/
def NodeKind.isLeaf : NodeKind → Bool
  | .ident | .number | .string | .numberType | .stringType => true
  | _ => false

/-- At the position `p`, the text reads `text` with `behind` behind it. -/
def ReadsAt (source : List Char) (p : Position) (text behind : List Char) : Prop :=
  ∃ before, source = before ++ (text ++ behind) ∧ p = Position.start.advanceOver before

/-- At the position `p`, the text reads `text` with no character of the given class behind it. -/
def StandsAlone (source : List Char) (p : Position) (text : List Char) (extends? : Char → Bool) : Prop :=
  ∃ behind, ReadsAt source p text behind ∧ ∀ c ∈ behind.head?, extends? c = false

/-- At the position of a leaf, the text reads the leaf. -/
def Expr.ReadsIn (source : List Char) : Expr → Prop
  | .ident p name => StandsAlone source p name.toList isWordChar
  | .number p digits => StandsAlone source p digits.toList Char.isDigit
  | .string p text => ∃ quote behind, isQuote quote = true ∧ quote ∉ text.toList ∧
      ReadsAt source p (quote :: text.toList ++ [quote]) behind
  | .numberType p => StandsAlone source p "number".toList isWordChar
  | .stringType p => StandsAlone source p "string".toList isWordChar
  | _ => True

/-! ## What a text reads at a token -/

/-- What a lexeme is, by its kind. -/
theorem lexeme_cases {c : Char} {cs : List Char} {kind : Kind} (h : (lexeme c cs).outcome = .ok kind) :
    (kind = .string ∧ isQuote c = true ∧ ∃ content, c ∉ content ∧ (lexeme c cs).text = c :: content ++ [c]) ∨
      (kind = .number ∧ ∀ d ∈ (lexeme c cs).rest.head?, d.isDigit = false) ∨
      (∃ word, kind = wordKind word ∧ ∀ d ∈ (lexeme c cs).rest.head?, isWordChar d = false) ∨
      ∃ symbol ∈ symbols, kind = symbol.2 := by
  have hdrop (p : Char → Bool) : ∀ d ∈ (cs.dropWhile p).head?, p d = false := by
    intro d hd
    have hfirst := List.head?_dropWhile_not p cs
    rw [Option.mem_def.1 hd] at hfirst
    exact hfirst
  unfold lexeme at h ⊢
  split at h
  · next hquote =>
    rw [if_pos hquote]
    unfold stringLexeme at h ⊢
    split at h
    · cases h
    · next close rest hclose =>
      cases h
      have hsame : (close != c) = false := hdrop (· != c) close (by simp [hclose])
      rw [bne_eq_false_iff_eq] at hsame
      refine .inl ⟨rfl, hquote, cs.takeWhile (· != c), fun hmem => ?_, ?_⟩
      · have hne := List.mem_takeWhile_imp hmem
        simp at hne
      · rw [hsame]
  · next hquote =>
    rw [if_neg hquote]
    split at h
    · next hdigit =>
      cases h
      rw [if_pos hdigit]
      exact .inr (.inl ⟨rfl, hdrop Char.isDigit⟩)
    · next hdigit =>
      rw [if_neg hdigit]
      split at h
      · next hword =>
        cases h
        rw [if_pos hword]
        exact .inr (.inr (.inl ⟨_, rfl, hdrop isWordChar⟩))
      · unfold symbolLexeme at h
        split at h
        · next symbol kind' hfind =>
          cases h
          exact .inr (.inr (.inr ⟨_, List.mem_of_find?_eq_some hfind, rfl⟩))
        · cases h

theorem kind_of_symbol : ∀ symbol ∈ symbols, symbol.2 ≠ .identifier ∧ symbol.2 ≠ .number ∧
    symbol.2 ≠ .string ∧ symbol.2 ≠ .numberKw ∧ symbol.2 ≠ .stringKw := by
  decide

theorem wordKind_ne_string (word : List Char) : wordKind word ≠ .string := by
  intro h
  have hspelling := spelling?_wordKind word (by simp [h])
  rw [h] at hspelling
  cases hspelling

namespace Token

variable {source : List Char} {token : Token}

/-- A token is the lexeme at its position. -/
theorem StandsIn.lexeme (h : token.StandsIn source) : ∃ c cs, (lexeme c cs).outcome = .ok token.kind ∧
    token.text.toList = (TypeForge.lexeme c cs).text ∧
    ReadsAt source token.pos token.text.toList (TypeForge.lexeme c cs).rest := by
  obtain ⟨before, behind, hsource, hpos, hnext⟩ := h
  obtain ⟨_, c, cs, kind, -, hkind, htoken, hcursor⟩ := Cursor.lexeme_of_next hnext
  have hrest : behind = (TypeForge.lexeme c cs).rest := congrArg Cursor.rest hcursor
  have hkind' : token.kind = kind := congrArg Token.kind htoken
  have htext : token.text = String.ofList (TypeForge.lexeme c cs).text := congrArg Token.text htoken
  refine ⟨c, cs, hkind' ▸ hkind, ?_, before, hrest ▸ hsource, hpos⟩
  rw [htext, String.toList_ofList]

/-- Behind a word there is no character of a word. -/
theorem StandsIn.standsAlone_word (h : token.StandsIn source)
    (hkind : token.kind = .identifier ∨ token.kind = .numberKw ∨ token.kind = .stringKw) :
    StandsAlone source token.pos token.text.toList isWordChar := by
  obtain ⟨c, cs, houtcome, -, hreads⟩ := h.lexeme
  refine ⟨_, hreads, ?_⟩
  rcases lexeme_cases houtcome with ⟨hstring, -⟩ | ⟨hnumber, -⟩ | ⟨word, -, hrest⟩ | ⟨symbol, hmem, hsymbol⟩
  · simp [hstring] at hkind
  · simp [hnumber] at hkind
  · exact hrest
  · obtain ⟨hne₁, -, -, hne₂, hne₃⟩ := kind_of_symbol symbol hmem
    simp [hsymbol, hne₁, hne₂, hne₃] at hkind

/-- A keyword is spelled as its kind. -/
theorem StandsIn.standsAlone_keyword (h : token.StandsIn source)
    (hkind : token.kind = .numberKw ∨ token.kind = .stringKw) {text : String}
    (hspelling : token.kind.spelling? = some text) : StandsAlone source token.pos text.toList isWordChar := by
  have halone := h.standsAlone_word (.inr hkind)
  obtain ⟨before, behind, -, -, hnext⟩ := h
  rwa [Cursor.genuine_of_next hnext text hspelling] at halone

/-- Behind a number there is no digit. -/
theorem StandsIn.standsAlone_number (h : token.StandsIn source) (hkind : token.kind = .number) :
    StandsAlone source token.pos token.text.toList Char.isDigit := by
  obtain ⟨c, cs, houtcome, -, hreads⟩ := h.lexeme
  refine ⟨_, hreads, ?_⟩
  rcases lexeme_cases houtcome with ⟨hstring, -⟩ | ⟨-, hrest⟩ | ⟨word, hword, -⟩ | ⟨symbol, hmem, hsymbol⟩
  · simp [hstring] at hkind
  · exact hrest
  · exact absurd (hword.symm.trans hkind) (wordKind_ne_number word)
  · exact absurd (hsymbol.symm.trans hkind) (kind_of_symbol symbol hmem).2.1

/-- A string stands between two quotes of the same kind. -/
theorem StandsIn.reads_string (h : token.StandsIn source) (hkind : token.kind = .string) :
    (Expr.string token.pos (Parser.unquoted token.text)).ReadsIn source := by
  obtain ⟨c, cs, houtcome, htext, hreads⟩ := h.lexeme
  rcases lexeme_cases houtcome with
    ⟨-, hquote, content, hnotin, hcontent⟩ | ⟨hnumber, -⟩ | ⟨word, hword, -⟩ | ⟨symbol, hmem, hsymbol⟩
  · have hunquoted : (Parser.unquoted token.text).toList = content := by
      rw [Parser.unquoted, htext, hcontent]
      simp
    refine ⟨c, (TypeForge.lexeme c cs).rest, hquote, hunquoted ▸ hnotin, ?_⟩
    rwa [hunquoted, ← hcontent, ← htext]
  · simp [hnumber] at hkind
  · exact absurd (hword.symm.trans hkind) (wordKind_ne_string word)
  · exact absurd (hsymbol.symm.trans hkind) (kind_of_symbol symbol hmem).2.2.1

end Token

/-! ## Records in order -/

/-- A node starts in front of the position `p` or at it, and a leaf in front of it. -/
def Node.Precedes (node : Node) (p : Position) : Prop :=
  node.pos.NotAfter p ∧ (node.value.isLeaf = true → node.pos.Before p)

theorem Node.Precedes.upto {node : Node} {p q : Position} (h : node.Precedes p) (hpq : p.NotAfter q) :
    node.Precedes q :=
  ⟨h.1.trans hpq, fun hleaf => (h.2 hleaf).trans_notAfter hpq⟩

/-- The nodes listed so far, and the expressions they belong to. -/
structure Record where
  nodes : List Node
  parts : List Expr

namespace Record

/-- A record with more behind it. -/
def add (record : Record) (nodes : List Node) (parts : List Expr) : Record :=
  ⟨record.nodes ++ nodes, record.parts ++ parts⟩

@[simp] theorem nodes_add (record : Record) (nodes : List Node) (parts : List Expr) :
    (record.add nodes parts).nodes = record.nodes ++ nodes := rfl

@[simp] theorem parts_add (record : Record) (nodes : List Node) (parts : List Expr) :
    (record.add nodes parts).parts = record.parts ++ parts := rfl

@[simp] theorem add_nil (record : Record) : record.add [] [] = record := by
  simp [add]

@[simp] theorem add_add (record : Record) (nodes nodes' : List Node) (parts parts' : List Expr) :
    (record.add nodes parts).add nodes' parts' = record.add (nodes ++ nodes') (parts ++ parts') := by
  simp [add]

end Record

/-- The nodes of a record are in order and in front of the position `p`, and the text reads the leaves
where they are. -/
structure Laid (source : List Char) (p : Position) (record : Record) : Prop where
  upper : ∀ node ∈ record.nodes, node.Precedes p
  sorted : record.nodes.Pairwise fun a b => a.Precedes b.pos
  reads : ∀ e ∈ record.parts, ∀ leaf, Expr.Within leaf e → leaf.ReadsIn source

namespace Laid

variable {source : List Char} {p q : Position} {record : Record} {kind : NodeKind}

theorem upto (h : Laid source p record) (hpq : p.NotAfter q) : Laid source q record :=
  ⟨fun node hnode => (h.upper node hnode).upto hpq, h.sorted, h.reads⟩

/-- A node that starts at the position. -/
theorem push (h : Laid source p record) (hkind : kind.isLeaf = false) :
    Laid source p (record.add [⟨p, kind⟩] []) where
  upper := by
    rw [Record.nodes_add, List.forall_mem_append, List.forall_mem_singleton]
    exact ⟨h.upper, .refl p, by simp [hkind]⟩
  sorted := by
    rw [Record.nodes_add, List.pairwise_append]
    refine ⟨h.sorted, List.pairwise_singleton _ _, fun node hnode last hlast => ?_⟩
    rw [List.mem_singleton.1 hlast]
    exact h.upper node hnode
  reads := by
    rw [Record.parts_add, List.append_nil]
    exact h.reads

/-- A leaf that ends in front of the position `q`. -/
theorem leaf (h : Laid source p record) (hpq : p.Before q) {e : Expr} (hnodes : e.nodes = [⟨p, kind⟩])
    (hchildren : e.children = []) (hreads : e.ReadsIn source) : Laid source q (record.add e.nodes [e]) where
  upper := by
    rw [Record.nodes_add, hnodes, List.forall_mem_append, List.forall_mem_singleton]
    exact ⟨fun node hnode => (h.upper node hnode).upto hpq.notAfter, hpq.notAfter, fun _ => hpq⟩
  sorted := by
    rw [Record.nodes_add, hnodes, List.pairwise_append]
    refine ⟨h.sorted, List.pairwise_singleton _ _, fun node hnode last hlast => ?_⟩
    rw [List.mem_singleton.1 hlast]
    exact h.upper node hnode
  reads := by
    rw [Record.parts_add, List.forall_mem_append, List.forall_mem_singleton]
    refine ⟨h.reads, fun sub hsub => ?_⟩
    cases hsub with
    | self => exact hreads
    | part hchild _ =>
      rw [hchildren] at hchild
      cases hchild

/-- A node in front of the expression it starts with. -/
theorem insert {e : Expr} (h : Laid source p (record.add e.nodes [e])) (hkind : kind.isLeaf = false) :
    Laid source p (record.add (⟨e.pos, kind⟩ :: e.nodes) [e]) where
  upper := by
    obtain ⟨hrecord, hnodes⟩ := List.forall_mem_append.1 h.upper
    obtain ⟨first, rest, hfirst⟩ := e.nodes_eq_cons
    rw [Record.nodes_add, List.forall_mem_append, List.forall_mem_cons]
    rw [hfirst, List.forall_mem_cons] at hnodes
    rw [hfirst, List.forall_mem_cons]
    exact ⟨hrecord, ⟨hnodes.1.1, by simp [hkind]⟩, hnodes⟩
  sorted := by
    have hsorted := h.sorted
    obtain ⟨first, rest, hfirst⟩ := e.nodes_eq_cons
    rw [Record.nodes_add, hfirst, List.pairwise_append, List.pairwise_cons] at hsorted
    obtain ⟨hrecord, ⟨hhead, hrest⟩, hcross⟩ := hsorted
    rw [Record.nodes_add, hfirst, List.pairwise_append, List.pairwise_cons, List.pairwise_cons,
      List.forall_mem_cons]
    refine ⟨hrecord, ⟨⟨⟨.refl _, by simp [hkind]⟩, fun node hnode => ⟨(hhead node hnode).1, by simp [hkind]⟩⟩,
      hhead, hrest⟩, fun node hnode => ?_⟩
    rw [List.forall_mem_cons]
    exact ⟨hcross node hnode ⟨e.pos, first⟩ List.mem_cons_self, hcross node hnode⟩
  reads := h.reads

/-- An expression whose parts have been listed. -/
theorem build {whole : Record} (h : Laid source p whole) {e : Expr}
    (hnodes : whole.nodes = record.nodes ++ e.nodes) (hparts : whole.parts = record.parts ++ e.children)
    (hself : e.ReadsIn source) : Laid source p (record.add e.nodes [e]) where
  upper := by
    rw [Record.nodes_add, ← hnodes]
    exact h.upper
  sorted := by
    rw [Record.nodes_add, ← hnodes]
    exact h.sorted
  reads := by
    have hreads := h.reads
    rw [hparts, List.forall_mem_append] at hreads
    rw [Record.parts_add, List.forall_mem_append, List.forall_mem_singleton]
    refine ⟨hreads.1, fun leaf hleaf => ?_⟩
    cases hleaf with
    | self => exact hself
    | part hchild hwithin => exact hreads.2 _ hchild leaf hwithin

end Laid

/-! ## Streams -/

namespace Stream

variable {source : List Char} {s s' : Stream} {cur : Cursor}

/-- The current token does not start in front of the cursor it was scanned from. -/
theorem notAfter_ofCursor (h : ofCursor cur = .ok s) : cur.pos.NotAfter s.pos := by
  unfold ofCursor at h
  rcases hnext : cur.next with ⟨_ | ⟨e | token⟩, cur'⟩ <;> rw [hnext] at h <;> cases h
  · obtain ⟨-, rfl⟩ := Cursor.isGap_of_next_none hnext
    exact Position.notAfter_advanceOver _ _
  · obtain ⟨gap, text, hstep⟩ := Cursor.step_of_next hnext
    have hpos : token.pos = cur.pos.advanceOver gap := hstep.item_pos
    change cur.pos.NotAfter token.pos
    rw [hpos]
    exact Position.notAfter_advanceOver _ _

/-- The cursor stands behind the current token. -/
theorem Scanned.before_cursor (h : s.Scanned source) {token : Token} (hcurrent : s.current = some token) :
    token.pos.Before s.cursor.pos := by
  obtain ⟨before, -, -, hcursor, htext, -⟩ := h.split hcurrent
  rw [hcursor]
  exact Position.before_advanceOver _ htext

theorem Scanned.notAfter_cursor (h : s.Scanned source) : s.pos.NotAfter s.cursor.pos := by
  unfold Stream.pos
  cases hcurrent : s.current with
  | none => exact .refl _
  | some token => exact (h.before_cursor hcurrent).notAfter

theorem pos_of_current {token : Token} (h : s.current = some token) : s.pos = token.pos := by
  rw [Stream.pos, h]
  rfl

end Stream

/-! ## Parsers -/

namespace Parser

variable {α β : Type} {source : List Char} {s : Stream} {p : Parser α} {f : α → Parser β}
  {k : Record} {K : α → Record} {M : β → Record}

/-- On the scanned stream `s`, a run of `p` makes the record `k` of what is in front of `s` the record
`K` of what is in front of the stream that it leaves. -/
def LaysAt (source : List Char) (s : Stream) (p : Parser α) (k : Record) (K : α → Record) : Prop :=
  s.Scanned source → Laid source s.pos k → ∀ a s', p s = .ok (a, s') →
    s'.Scanned source ∧ Laid source s'.pos (K a)

/-- The runs of `p` add the given nodes and parts to a record. -/
def Lays (source : List Char) (p : Parser α) (nodes : α → List Node) (parts : α → List Expr) : Prop :=
  ∀ s k, LaysAt source s p k fun a => k.add (nodes a) (parts a)

/-- The runs of `p` add nothing to a record. -/
def Nodeless (source : List Char) (p : Parser α) : Prop := ∀ s k, LaysAt source s p k fun _ => k

theorem LaysAt.bind (hp : LaysAt source s p k K) (hf : ∀ a t, LaysAt source t (f a) (K a) M) :
    LaysAt source s (p >>= f) k M := by
  intro hs hk b s' hrun
  obtain ⟨a, t, ha, hb⟩ := run_bind_eq_ok hrun
  obtain ⟨ht, hK⟩ := hp hs hk a t ha
  exact hf a t ht hK b s' hb

/-- A result for what has been listed. -/
theorem laysAt_pure {a : α} (h : Laid source s.pos k → Laid source s.pos (K a)) :
    LaysAt source s (pure a) k K := by
  intro hs hk b s' hrun
  cases hrun
  exact ⟨hs, h hk⟩

theorem laysAt_fail {pos : Position} {error : SyntaxError} : LaysAt source s (fail pos error) k K := by
  intro _ _ a s' hrun
  cases hrun

theorem laysAt_get {g : Stream → Parser β} (h : LaysAt source s (g s) k M) :
    LaysAt source s (get >>= g) k M := h

/-- A node that starts at the current token is listed before anything is read. -/
theorem LaysAt.push {pos : Position} (kind : NodeKind) (hpos : s.pos = pos) (hkind : kind.isLeaf = false)
    (h : LaysAt source s p (k.add [⟨pos, kind⟩] []) K) : LaysAt source s p k K := by
  intro hs hk
  subst hpos
  exact h hs (hk.push hkind)

/-- An operator is listed in front of its left operand, and starts where that starts. -/
theorem LaysAt.operator {lhs : Expr} (kind : NodeKind) (hkind : kind.isLeaf = false)
    (h : LaysAt source s p (k.add (⟨lhs.pos, kind⟩ :: lhs.nodes) [lhs]) K) :
    LaysAt source s p (k.add lhs.nodes [lhs]) K :=
  fun hs hk => h hs (hk.insert hkind)

/-- A node whose kind is told by what is read first, which has no nodes of its own. -/
theorem Nodeless.push (hp : Nodeless source p) (kind : α → NodeKind)
    (hkind : ∀ a, (kind a).isLeaf = false) (s : Stream) (k : Record) :
    LaysAt source s p k fun a => k.add [⟨s.pos, kind a⟩] [] :=
  fun hs hk a s' hrun => hp s _ hs (hk.push (hkind a)) a s' hrun

/-- **A recursion adds to a record what its step adds**, given that the recursive calls do. -/
theorem lays_fix {step : (α → Parser β) → α → Parser β} {B : α → Record → Record}
    {nodes : β → List Node} {parts : β → List Expr}
    (h : ∀ again, (∀ a s k, LaysAt source s (again a) (B a k) fun b => k.add (nodes b) (parts b)) →
      ∀ a s k, LaysAt source s (step again a) (B a k) fun b => k.add (nodes b) (parts b))
    (a : α) (s : Stream) (k : Record) :
    LaysAt source s (fix step a) (B a k) fun b => k.add (nodes b) (parts b) := by
  induction hn : s.size using Nat.strongRecOn generalizing s a k with
  | ind n ih =>
    intro hs hk b s' hrun
    rw [run_fix] at hrun
    refine h _ (fun a' t k' ht hk' b' t' hrun' => ?_) a s k hs hk b s' hrun
    -- a call that has not less to read fails
    obtain ⟨hlt, hrun''⟩ := run_below_eq_ok hrun'
    exact ih t.size (hn ▸ hlt) a' t k' rfl ht hk' b' t' hrun''

theorem lays_loop {step : (Unit → Parser β) → Unit → Parser β} {nodes : β → List Node}
    {parts : β → List Expr}
    (h : ∀ again, Lays source (again ()) nodes parts → Lays source (step again ()) nodes parts) :
    Lays source (fix step ()) nodes parts :=
  lays_fix (B := fun _ k => k) (fun again hagain _ => h again (hagain ())) ()

/-! ## Tokens -/

theorem nodeless_advance : Nodeless source advance := by
  intro s k hs hk token s' hrun
  refine ⟨(scanned_of_advance hs hrun).1, hk.upto ?_⟩
  exact hs.notAfter_cursor.trans (Stream.notAfter_ofCursor (ofCursor_of_advance hrun))

theorem nodeless_expectKind (kind : Kind) : Nodeless source (expectKind kind) := by
  intro s k hs hk _ s' hrun
  obtain ⟨-, rfl⟩ := run_expectKind_eq_ok hrun
  exact ⟨hs, hk⟩

theorem nodeless_consume (kind : Kind) : Nodeless source (consume kind) := fun s k =>
  (nodeless_expectKind kind s k).bind fun _ t => nodeless_advance t k

theorem nodeless_take (kind : Kind) : Nodeless source (take kind) := by
  intro s k
  refine laysAt_get ?_
  split
  · exact (nodeless_advance s k).bind fun _ t => laysAt_pure id
  · exact laysAt_pure id

theorem nodeless_name : Nodeless source name := fun s k =>
  (nodeless_consume .identifier s k).bind fun _ _ => laysAt_pure id

theorem nodeless_stringLiteral : Nodeless source stringLiteral := fun s k =>
  (nodeless_consume .string s k).bind fun _ _ => laysAt_pure id

/-- A leaf is made of the current token. -/
theorem laysAt_leaf {p : Parser Token} {F : Token → Expr} {token : Token} {kind : NodeKind}
    (hcurrent : s.current = some token) (hp : ∀ t s', p s = .ok (t, s') → advance s = .ok (t, s'))
    (hnodes : (F token).nodes = [⟨token.pos, kind⟩]) (hchildren : (F token).children = [])
    (hreads : token.StandsIn source → (F token).ReadsIn source) :
    LaysAt source s (do return F (← p)) k fun e => k.add e.nodes [e] := by
  intro hs hk e s' hrun
  obtain ⟨token', t, htoken, hpure⟩ := run_bind_eq_ok hrun
  cases hpure
  have hadvance := hp token' s' htoken
  cases (current_of_advance hadvance).symm.trans hcurrent
  have hafter := Stream.notAfter_ofCursor (ofCursor_of_advance hadvance)
  rw [Stream.pos_of_current hcurrent] at hk
  refine ⟨(scanned_of_advance hs hadvance).1, hk.leaf ?_ hnodes hchildren ?_⟩
  · exact (hs.before_cursor hcurrent).trans_notAfter hafter
  · exact hreads (hs.within.current token hcurrent)

/-- A piece of a template string has no nodes, and what is behind it is scanned anew. -/
theorem laysAt_templatePiece {start : Position} {g : String × TextEnd → Parser β}
    (h : ∀ piece t, LaysAt source t (g piece) k M) :
    LaysAt source s (templatePiece start >>= fun piece => rescan >>= fun _ => g piece) k M := by
  intro hs hk b s' hrun
  obtain ⟨piece, t, hpiece, hrest⟩ := run_bind_eq_ok hrun
  obtain ⟨_, s₁, hrescan, hg⟩ := run_bind_eq_ok hrest
  obtain ⟨cs, rest, hcs, -, hcursor⟩ := run_templatePiece_eq_ok hpiece
  have hscan := ofCursor_of_rescan hrescan
  rw [hcursor] at hscan
  have hpast : s.pos.NotAfter (s.cursor.past cs rest).pos :=
    hs.notAfter_cursor.trans (Position.notAfter_advanceOver _ cs)
  have hscanned : s₁.Scanned source := ⟨_, hs.within.cursor.past hcs, hscan⟩
  exact h piece s₁ hscanned (hk.upto (hpast.trans (Stream.notAfter_ofCursor hscan))) b s' hg

/-! ## Lists -/

theorem lays_nil {nodes : α → List Node} {parts : α → List Expr} :
    Lays source (pure [] : Parser (List α)) (List.flatMap nodes) (List.flatMap parts) := by
  intro s k
  refine laysAt_pure fun h => ?_
  simpa using h

section

variable {item : Parser α} {nodes : α → List Node} {parts : α → List Expr}
  (hitem : Lays source item nodes parts)

include hitem

/-- An item in front of others. -/
theorem lays_cons {more : Parser (List α)}
    (hmore : Lays source more (List.flatMap nodes) (List.flatMap parts)) :
    Lays source (do let a ← item; return a :: (← more)) (List.flatMap nodes) (List.flatMap parts) := by
  intro s k
  refine (hitem s k).bind fun a t => (hmore t _).bind fun as u => laysAt_pure fun h => ?_
  simpa using h

theorem lays_separated (separator : Kind) :
    Lays source (separated separator item) (List.flatMap nodes) (List.flatMap parts) := by
  refine lays_cons hitem (lays_loop fun again hagain s k => ?_)
  refine (nodeless_take separator s k).bind fun found t => ?_
  split
  · exact lays_cons hitem hagain t k
  · exact lays_nil t k

theorem lays_whileInBraces :
    Lays source (whileInBraces item) (List.flatMap nodes) (List.flatMap parts) := by
  refine lays_loop fun again hagain s k => laysAt_get ?_
  split
  · exact lays_cons hitem hagain s k
  · exact lays_nil s k

end

end Parser

end TypeForge
