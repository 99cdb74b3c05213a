import GrammarArt.Proofs.Shader.Rendering

/-! # Reading shader code

The reader takes the tokens of a term for the expression of the term (`Term.reads_tokens`),
and those of a statement for the statement with that expression (`read?_codeText`).

The rules of the grammar come first, one for each way a reader can go on (`Reads`).  What has
to be shown of a term is that at each rank `q` its tokens are read in two ways: by themselves,
and as the first operands of a chain of operators of rank `q` (`Begins`).  The second is what
lets operators of one rank group to the left: a chain inside of a chain is read as one.
-/
namespace GrammarArt.Shader

open GrammarArt.Shader.Language
open Binary32

namespace Language

/-! ### The rules of the grammar -/

/-- A reader reads this value and leaves these tokens. -/
def Reads {α : Type} {P : List Token → Prop} (result : Option (α × { rest // P rest }))
    (value : α) (rest : List Token) : Prop :=
  ∃ h, result = some (value, ⟨rest, h⟩)

variable {rank : Nat} {op : Operator} {e e' : Expr} {es : List Expr} {text field : String}
variable {tokens rest rest' : List Token}

theorem skip?_self (token : Token) (rest : List Token) :
    skip? token (token :: rest) = some ⟨rest, Nat.lt_succ_self _⟩ := if_pos rfl

theorem skip?_of_ne {wanted : Token} (h : ∀ token ∈ tokens.head?, token ≠ wanted) :
    skip? wanted tokens = none := by
  cases tokens with
  | nil => rfl
  | cons token tokens => exact if_neg (h token rfl)

theorem operator?_self (op : Operator) (rest : List Token) :
    operator? op.rank (.sign op.text :: rest) = some (op, ⟨rest, Nat.lt_succ_self _⟩) := by
  cases op with
  | add | sub | mul | div | rem | less | equal => rfl

theorem reads_chain_stop (h : operator? rank tokens = none) (e : Expr) :
    Reads (readChain rank e tokens) e tokens := by
  refine ⟨Nat.le_refl _, ?_⟩
  rw [readChain, h]

theorem reads_chain_step {right : Expr}
    (hright : Reads (readOperand (op.rank + 1) tokens) right rest)
    (hchain : Reads (readChain op.rank (.infixed op e right) rest) e' rest') :
    Reads (readChain op.rank e (.sign op.text :: tokens)) e' rest' := by
  obtain ⟨hlt, hread⟩ := hright
  obtain ⟨hle, hread'⟩ := hchain
  refine ⟨Nat.le_of_lt (Nat.lt_of_le_of_lt hle (Nat.lt_succ_of_lt hlt)), ?_⟩
  rw [readChain, operator?_self]
  simp [hread, hread']

theorem reads_operand (hrank : rank < 3) (hleft : Reads (readOperand (rank + 1) tokens) e rest)
    (hchain : Reads (readChain rank e rest) e' rest') :
    Reads (readOperand rank tokens) e' rest' := by
  obtain ⟨hlt, hread⟩ := hleft
  obtain ⟨hle, hread'⟩ := hchain
  refine ⟨Nat.lt_of_le_of_lt hle hlt, ?_⟩
  rw [readOperand, if_pos hrank]
  simp [hread, hread']

theorem readOperand_three (tokens : List Token) : readOperand 3 tokens = readSigned tokens := by
  rw [readOperand, if_neg (by decide)]

theorem reads_signed_negate (h : Reads (readSigned tokens) e rest) :
    Reads (readSigned (.sign "-" :: tokens)) (.negate e) rest := by
  obtain ⟨hlt, hread⟩ := h
  refine ⟨Nat.lt_succ_of_lt hlt, ?_⟩
  rw [readSigned, skip?_self]
  simp [hread]

theorem reads_signed_primary (hsign : ∀ token ∈ tokens.head?, token ≠ .sign "-")
    (hprimary : Reads (readPrimary tokens) e rest)
    (hsuffixes : Reads (readSuffixes e rest) e' rest') : Reads (readSigned tokens) e' rest' := by
  obtain ⟨hlt, hread⟩ := hprimary
  obtain ⟨hle, hread'⟩ := hsuffixes
  refine ⟨Nat.lt_of_le_of_lt hle hlt, ?_⟩
  rw [readSigned, skip?_of_ne hsign]
  simp [hread, hread']

theorem reads_primary_float (v : Float32) (rest : List Token) :
    Reads (readPrimary (.float v :: rest)) (.float v) rest :=
  ⟨Nat.lt_succ_self _, by rw [readPrimary]⟩

theorem reads_primary_whole (n : Nat) (rest : List Token) :
    Reads (readPrimary (.whole n :: rest)) (.whole n) rest :=
  ⟨Nat.lt_succ_self _, by rw [readPrimary]⟩

theorem reads_primary_name (h : ∀ token ∈ rest.head?, token ≠ .sign "(") :
    Reads (readPrimary (.word text :: rest)) (.name text) rest :=
  ⟨Nat.lt_succ_self _, by rw [readPrimary, skip?_of_ne h]⟩

theorem reads_primary_call (h : Reads (readArguments tokens) es rest) :
    Reads (readPrimary (.word text :: .sign "(" :: tokens)) (.call text es) rest := by
  obtain ⟨hlt, hread⟩ := h
  refine ⟨Nat.lt_succ_of_lt (Nat.lt_succ_of_lt hlt), ?_⟩
  rw [readPrimary, skip?_self]
  simp [hread]

theorem reads_primary_parentheses (h : Reads (readOperand 0 tokens) e (.sign ")" :: rest)) :
    Reads (readPrimary (.sign "(" :: tokens)) e rest := by
  obtain ⟨hlt, hread⟩ := h
  refine ⟨Nat.lt_succ_of_lt (Nat.lt_trans (Nat.lt_succ_self _) hlt), ?_⟩
  rw [readPrimary, skip?_self]
  simp [hread, skip?_self]

theorem reads_arguments_last (h : Reads (readOperand 0 tokens) e (.sign ")" :: rest)) :
    Reads (readArguments tokens) [e] rest := by
  obtain ⟨hlt, hread⟩ := h
  refine ⟨Nat.lt_trans (Nat.lt_succ_self _) hlt, ?_⟩
  have hcomma : skip? (.sign ",") (.sign ")" :: rest) = none := rfl
  rw [readArguments]
  simp [hread, hcomma, skip?_self]

theorem reads_arguments_cons (h : Reads (readOperand 0 tokens) e (.sign "," :: rest))
    (hargs : Reads (readArguments rest) es rest') :
    Reads (readArguments tokens) (e :: es) rest' := by
  obtain ⟨hlt, hread⟩ := h
  obtain ⟨hlt', hread'⟩ := hargs
  refine ⟨Nat.lt_trans hlt' (Nat.lt_trans (Nat.lt_succ_self _) hlt), ?_⟩
  rw [readArguments]
  simp [hread, skip?_self, hread']

theorem reads_suffixes_stop (h : ∀ token ∈ tokens.head?, token ≠ .sign "." ∧ token ≠ .sign "[") :
    Reads (readSuffixes e tokens) e tokens := by
  refine ⟨Nat.le_refl _, ?_⟩
  rw [readSuffixes, skip?_of_ne fun token ht => (h token ht).1,
    skip?_of_ne fun token ht => (h token ht).2]

theorem reads_suffixes_member (h : Reads (readSuffixes (.member e field) tokens) e' rest) :
    Reads (readSuffixes e (.sign "." :: .word field :: tokens)) e' rest := by
  obtain ⟨hle, hread⟩ := h
  refine ⟨Nat.le_succ_of_le (Nat.le_succ_of_le hle), ?_⟩
  rw [readSuffixes, skip?_self]
  simp [word?, hread]

theorem reads_suffixes_index {i : Expr} (hi : Reads (readOperand 0 tokens) i (.sign "]" :: rest))
    (h : Reads (readSuffixes (.index e i) rest) e' rest') :
    Reads (readSuffixes e (.sign "[" :: tokens)) e' rest' := by
  obtain ⟨hlt, hread⟩ := hi
  obtain ⟨hle, hread'⟩ := h
  have hlt' := Nat.lt_trans (Nat.lt_succ_self _) hlt
  refine ⟨Nat.le_of_lt (Nat.lt_of_le_of_lt hle (Nat.lt_succ_of_lt hlt')), ?_⟩
  have hpoint : skip? (.sign ".") (.sign "[" :: tokens) = none := rfl
  rw [readSuffixes, hpoint, skip?_self]
  simp [hread, skip?_self, hread']

/-! ### Operands and chains -/

/-- An expression of some rank ends in front of these tokens. -/
def Stops (rank : Nat) (rest : List Token) : Prop :=
  ∀ token ∈ rest.head?, token ≠ .sign "(" ∧ token ≠ .sign "." ∧ token ≠ .sign "[" ∧
    ∀ op : Operator, token = .sign op.text → op.rank < rank

theorem stops_cons {token : Token} (h : token ∈ [.sign ")", .sign ",", .sign "]", .sign ";"])
    (rank : Nat) (rest : List Token) : Stops rank (token :: rest) := by
  rintro token' ⟨rfl⟩
  have hop : ∀ token ∈ [Token.sign ")", .sign ",", .sign "]", .sign ";"],
      token ≠ .sign "(" ∧ token ≠ .sign "." ∧ token ≠ .sign "[" ∧
        ∀ op ∈ operators, token ≠ .sign op.text := by decide
  obtain ⟨hopen, hpoint, hbracket, hops⟩ := hop token h
  refine ⟨hopen, hpoint, hbracket, fun op heq => absurd heq (hops op ?_)⟩
  cases op with
  | add | sub | mul | div | rem | less | equal => decide

theorem find?_operator (op : Operator) :
    operators.find? (fun op' => op'.text = op.text) = some op := by
  cases op with
  | add | sub | mul | div | rem | less | equal => rfl

theorem operator_eq_of_text_eq {op' : Operator} (h : op.text = op'.text) : op = op' := by
  have hfind := find?_operator op
  rw [h, find?_operator op'] at hfind
  exact (Option.some.inj hfind).symm

theorem stops_operator (op : Operator) (rest : List Token) :
    Stops (op.rank + 1) (.sign op.text :: rest) := by
  have hsigns : op.text ≠ "(" ∧ op.text ≠ "." ∧ op.text ≠ "[" := by
    cases op with
    | add | sub | mul | div | rem | less | equal => decide
  rintro token ⟨rfl⟩
  simp only [ne_eq, Token.sign.injEq]
  refine ⟨hsigns.1, hsigns.2.1, hsigns.2.2, fun op' heq => ?_⟩
  rw [operator_eq_of_text_eq heq]
  exact Nat.lt_succ_self _

theorem Stops.mono {q r : Nat} (h : Stops q rest) (hle : q ≤ r) : Stops r rest := by
  intro token htoken
  obtain ⟨hopen, hpoint, hbracket, hop⟩ := h token htoken
  exact ⟨hopen, hpoint, hbracket, fun op heq => Nat.lt_of_lt_of_le (hop op heq) hle⟩

theorem Stops.operator?_eq_none {q : Nat} (h : Stops q rest) : operator? q rest = none := by
  unfold operator?
  split
  · rename_i text rest'
    have hnone : operators.find? (fun op => op.text = text && op.rank = q) = none := by
      rw [List.find?_eq_none]
      intro op _ hop
      simp only [Bool.and_eq_true, decide_eq_true_eq] at hop
      have hlt := (h _ rfl).2.2.2 op (by rw [hop.1])
      exact Nat.lt_irrefl _ (hop.2 ▸ hlt)
    rw [hnone]
    rfl
  · rfl

/-- The tokens are read as the expression at some rank. -/
def ReadsAt (q : Nat) (ts : List Token) (e : Expr) : Prop :=
  ∀ rest, Stops q rest → Reads (readOperand q (ts ++ rest)) e rest

/-- The tokens are read as the first operands of a chain of some rank. -/
def Begins (q : Nat) (ts : List Token) (e : Expr) : Prop :=
  ∀ rest e' rest', Stops (q + 1) rest → Reads (readChain q e rest) e' rest' →
    Reads (readOperand q (ts ++ rest)) e' rest'

variable {q : Nat} {ts : List Token}

theorem Begins.readsAt (h : Begins q ts e) : ReadsAt q ts e := fun rest hrest =>
  h rest e rest (hrest.mono (Nat.le_succ q)) (reads_chain_stop hrest.operator?_eq_none e)

theorem ReadsAt.begins (h : ReadsAt (q + 1) ts e) (hq : q < 3) : Begins q ts e :=
  fun rest _ _ hrest hchain => reads_operand hq (h rest hrest) hchain

/-- What is read at some rank is read at every lower one. -/
theorem ReadsAt.mono {r : Nat} (h : ReadsAt r ts e) (hr : r ≤ 3) (hle : q ≤ r) :
    ReadsAt q ts e := by
  induction r, hle using Nat.le_induction with
  | base => exact h
  | succ r hle ih => exact ih (h.begins hr).readsAt (Nat.le_of_succ_le hr)

/-! ### Operands of the highest rank -/

theorem reads_suffixes_end (hrest : Stops 3 rest) (e : Expr) :
    Reads (readSuffixes e rest) e rest := by
  refine reads_suffixes_stop fun token ht => ?_
  obtain ⟨-, hpoint, hbracket, -⟩ := hrest token ht
  exact ⟨hpoint, hbracket⟩

/-- A primary expression of which nothing is taken. -/
theorem readsAt_primary {first : Token} (hfirst : first ≠ .sign "-")
    (h : ∀ rest, Stops 3 rest → Reads (readPrimary (first :: ts ++ rest)) e rest) :
    ReadsAt 3 (first :: ts) e := by
  intro rest hrest
  rw [readOperand_three]
  refine reads_signed_primary ?_ (h rest hrest) (reads_suffixes_end hrest e)
  rintro token ⟨rfl⟩
  exact hfirst

theorem readsAt_float (v : Float32) : ReadsAt 3 [.float v] (.float v) :=
  readsAt_primary nofun fun rest _ => reads_primary_float v rest

theorem readsAt_whole (n : Nat) : ReadsAt 3 [.whole n] (.whole n) :=
  readsAt_primary nofun fun rest _ => reads_primary_whole n rest

theorem readsAt_name (text : String) : ReadsAt 3 [.word text] (.name text) :=
  readsAt_primary nofun fun _ hrest => reads_primary_name fun token ht => (hrest token ht).1

theorem readsAt_call (h : ∀ rest, Reads (readArguments (ts ++ rest)) es rest) :
    ReadsAt 3 (.word text :: .sign "(" :: ts) (.call text es) :=
  readsAt_primary nofun fun rest _ => reads_primary_call (h rest)

theorem readsAt_parentheses (h : ReadsAt 0 ts e) :
    ReadsAt 3 (.sign "(" :: (ts ++ [.sign ")"])) e := by
  refine readsAt_primary (by decide) fun rest _ => ?_
  rw [List.cons_append, List.append_assoc]
  exact reads_primary_parentheses (h _ (stops_cons (by decide) 0 rest))

theorem readsAt_negate (h : ReadsAt 3 ts e) : ReadsAt 3 (.sign "-" :: ts) (.negate e) := by
  intro rest hrest
  have hread := h rest hrest
  rw [readOperand_three] at hread ⊢
  exact reads_signed_negate hread

/-- A name of which fields and places are taken. -/
theorem readsAt_suffixes (h : ∀ rest, Stops 3 rest →
    Reads (readSuffixes (.name text) (.sign "." :: ts ++ rest)) e rest) :
    ReadsAt 3 (.word text :: .sign "." :: ts) e := by
  intro rest hrest
  rw [readOperand_three]
  have hcall : ∀ token ∈ (Token.sign "." :: ts ++ rest).head?, token ≠ .sign "(" := by
    rintro token ⟨rfl⟩
    decide
  refine reads_signed_primary ?_ (reads_primary_name hcall) (h rest hrest)
  rintro token ⟨rfl⟩
  exact nofun

theorem readsAt_member (text field : String) :
    ReadsAt 3 [.word text, .sign ".", .word field] (.member (.name text) field) :=
  readsAt_suffixes fun _ hrest => reads_suffixes_member (reads_suffixes_end hrest _)

/-- A place of a value that is given by a whole number. -/
theorem reads_suffixes_whole {n : Nat}
    (h : Reads (readSuffixes (.index e (.whole n)) rest) e' rest') :
    Reads (readSuffixes e (.sign "[" :: .whole n :: .sign "]" :: rest)) e' rest' :=
  reads_suffixes_index ((readsAt_whole n).mono (Nat.le_refl 3) (Nat.zero_le 3) _
    (stops_cons (by decide) 0 rest)) h

/-! ### The arguments of a call -/

theorem reads_arguments_one (h : ReadsAt 0 ts e) (rest : List Token) :
    Reads (readArguments (ts ++ [.sign ")"] ++ rest)) [e] rest := by
  rw [List.append_assoc]
  exact reads_arguments_last (h _ (stops_cons (by decide) 0 rest))

theorem reads_arguments_more {us : List Token} (h : ReadsAt 0 ts e)
    (hargs : ∀ rest, Reads (readArguments (us ++ rest)) es rest) (rest : List Token) :
    Reads (readArguments (ts ++ .sign "," :: us ++ rest)) (e :: es) rest := by
  rw [List.append_assoc]
  exact reads_arguments_cons (h _ (stops_cons (by decide) 0 _)) (hargs rest)

end Language

/-! ### Terms -/

/-- The expression of a term. -/
def Term.expr : Term → Expr
  | node id => .name (nodeName id)
  | channel id axis => .member (.name (nodeName id)) axis.text
  | point axis => .member (.name pointName) axis.text
  | feed slot =>
    .index (.index (.member (.name paramsName) "vars") (.whole (slot / 4))) (.whole (slot % 4))
  | literal v =>
    let digits := Expr.float (ofMagnitude false (magnitude v))
    if negative v then .negate digits else digits
  | negate a => .negate a.expr
  | infixed op a b => .infixed op a.expr b.expr
  | call₁ f a => .call f.text [a.expr]
  | call₂ f a b => .call f.text [a.expr, b.expr]
  | call₃ f a b c => .call f.text [a.expr, b.expr, c.expr]

theorem Operator.rank_lt (op : Operator) : op.rank < 3 := by
  cases op with
  | add | sub | mul | div | rem | less | equal => decide

/-- The tokens of a term are read as its expression at every rank, also where a chain of
operators follows. -/
def Term.Readable (t : Term) : Prop :=
  ∀ q ≤ 3, ReadsAt q (t.tokens q) t.expr ∧ (q < 3 → Begins q (t.tokens q) t.expr)

/-- What is read at the highest rank is read at every rank. -/
theorem Term.readable_of_readsAt {t : Term} {ts : List Token} (htokens : ∀ q, t.tokens q = ts)
    (h : ReadsAt 3 ts t.expr) : t.Readable := by
  intro q hq
  rw [htokens q]
  exact ⟨h.mono (Nat.le_refl 3) hq, fun hlt => (h.mono (Nat.le_refl 3) hlt).begins hlt⟩

theorem Term.readsAt_literal (v : Float32) (q : Nat) :
    ReadsAt 3 ((literal v).tokens q) (literal v).expr := by
  have hdigits := readsAt_float (ofMagnitude false (magnitude v))
  rw [tokens, expr]
  cases negative v with
  | false => exact hdigits
  | true =>
    have hnegated := (readsAt_negate hdigits).mono (Nat.le_refl 3) (Nat.zero_le 3)
    exact readsAt_parentheses hnegated

theorem Term.readsAt_feed (slot q : Nat) :
    ReadsAt 3 ((feed slot).tokens q) (feed slot).expr :=
  readsAt_suffixes fun _ hrest => reads_suffixes_member (reads_suffixes_whole
    (reads_suffixes_whole (reads_suffixes_end hrest _)))

/-- An operator between its operands begins a chain of its rank. -/
theorem Term.begins_infixed (op : Operator) {a b : Term} (ha : a.Readable) (hb : b.Readable) :
    Begins op.rank (a.tokens (Nat.max op.rank 1) ++ .sign op.text :: b.tokens (op.rank + 1))
      (infixed op a b).expr := by
  have hop := op.rank_lt
  have hleft : Begins op.rank (a.tokens (Nat.max op.rank 1)) a.expr := by
    rcases Nat.eq_zero_or_pos op.rank with hzero | hpos
    · rw [hzero]
      exact (ha 1 (by decide)).1.begins (by decide)
    · have hmax : Nat.max op.rank 1 = op.rank := Nat.max_eq_left hpos
      rw [hmax]
      exact (ha op.rank (Nat.le_of_lt hop)).2 hop
  intro rest e' rest' hrest hchain
  have hright := (hb (op.rank + 1) hop).1 rest hrest
  rw [List.append_assoc]
  exact hleft _ e' rest' (stops_operator op _) (reads_chain_step hright hchain)

theorem Term.readable_infixed (op : Operator) {a b : Term} (ha : a.Readable) (hb : b.Readable) :
    (infixed op a b).Readable := by
  have hop := op.rank_lt
  have hbare := begins_infixed op ha hb
  intro q hq
  rw [tokens]
  split
  · have hclosed := readsAt_parentheses (hbare.readsAt.mono (Nat.le_of_lt hop) (Nat.zero_le _))
    exact ⟨hclosed.mono (Nat.le_refl 3) hq,
      fun hlt => (hclosed.mono (Nat.le_refl 3) hlt).begins hlt⟩
  · rename_i hle
    have hle' : q ≤ op.rank := Nat.le_of_not_lt hle
    refine ⟨hbare.readsAt.mono (Nat.le_of_lt hop) hle', fun hlt => ?_⟩
    rcases Nat.eq_or_lt_of_le hle' with heq | hlt'
    · exact heq ▸ hbare
    · exact (hbare.readsAt.mono (Nat.le_of_lt hop) hlt').begins hlt

/-- **The tokens of a term are read as its expression.** -/
theorem Term.readable (t : Term) : t.Readable := by
  induction t with
  | node id => exact readable_of_readsAt (fun _ => rfl) (readsAt_name _)
  | channel id axis => exact readable_of_readsAt (fun _ => rfl) (readsAt_member _ _)
  | point axis => exact readable_of_readsAt (fun _ => rfl) (readsAt_member _ _)
  | feed slot => exact readable_of_readsAt (fun _ => rfl) (readsAt_feed slot 0)
  | literal v => exact readable_of_readsAt (fun _ => rfl) (readsAt_literal v 0)
  | negate a iha => exact readable_of_readsAt (fun _ => rfl) (readsAt_negate (iha 3 (by decide)).1)
  | infixed op a b iha ihb => exact readable_infixed op iha ihb
  | call₁ f a iha =>
    have ha := reads_arguments_one (iha 0 (by decide)).1
    exact readable_of_readsAt (fun _ => rfl) (readsAt_call ha)
  | call₂ f a b iha ihb =>
    have hb := reads_arguments_one (ihb 0 (by decide)).1
    have ha := reads_arguments_more (iha 0 (by decide)).1 hb
    exact readable_of_readsAt (fun _ => rfl) (readsAt_call ha)
  | call₃ f a b c iha ihb ihc =>
    have hc := reads_arguments_one (ihc 0 (by decide)).1
    have hb := reads_arguments_more (ihb 0 (by decide)).1 hc
    have ha := reads_arguments_more (iha 0 (by decide)).1 hb
    exact readable_of_readsAt (fun _ => rfl) (readsAt_call ha)

/-! ### Statements -/

/-- What a statement is read as. -/
def Statement.binding (s : Statement) : Binding := ⟨nodeName s.id, vectorType, s.value.expr⟩

theorem Statement.reads_tokens (s : Statement) (rest : List Token) :
    Reads (readBinding (s.tokens ++ rest)) s.binding rest := by
  obtain ⟨hlt, hread⟩ := (s.value.readable 0 (by decide)).1 (.sign ";" :: rest)
    (stops_cons (by decide) 0 rest)
  have htokens : s.tokens ++ rest = .word "let" :: .word (nodeName s.id) :: .sign ":" ::
      .word vectorType :: .sign "=" :: (s.value.tokens 0 ++ .sign ";" :: rest) := by
    simp [tokens]
  rw [htokens]
  refine ⟨?_, ?_⟩
  · simp only [List.length_cons, List.length_append]
    omega
  · rw [readBinding]
    simp only [skip?_self, word?, hread, Option.bind_eq_bind, Option.bind_some]
    rfl

theorem readBindings_tokens (ss : List Statement) :
    readBindings (ss.flatMap Statement.tokens) = some (ss.map Statement.binding) := by
  induction ss with
  | nil => rw [List.flatMap_nil, readBindings, List.map_nil]
  | cons s ss ih =>
    have hread := s.reads_tokens (ss.flatMap Statement.tokens)
    rw [List.flatMap_cons, List.map_cons]
    generalize s.tokens ++ ss.flatMap Statement.tokens = tokens at hread
    obtain ⟨hlt, hread⟩ := hread
    cases tokens with
    | nil => exact absurd hlt (Nat.not_lt_zero _)
    | cons token tokens =>
      rw [readBindings]
      simp [hread, ih]

/-- **The code of a tree is read as its statements.** -/
theorem read?_codeText {t : Tree} (h : ∀ s ∈ t.code, s.value.Finite) :
    Language.read? t.codeText = some (t.code.map Statement.binding) := by
  rw [Language.read?, scan_codeText h]
  exact readBindings_tokens t.code

end GrammarArt.Shader
