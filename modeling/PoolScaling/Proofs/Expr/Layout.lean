import PoolScaling.Proofs.Expr.Cursor

/-! Layout.

A parser looks at what tokens say. Where they stand it only reports, and a line break
matters to it outside brackets alone. So of two sources whose tokens differ in nothing
else, both are read or both are refused, with the same statements or at the same token
(`parse_resembling`). One step of the argument is that the brackets a cursor counts are
those that the tokens before it have opened and not closed.

Two consequences: line breaks inside brackets can be made and removed
(`parse_rebreak`), and a defect shows at a token or at the end of the source
(`position_of_parse`). -/
namespace PoolScaling.Expr

/-! ### Brackets -/

/-- What a mark adds to the number of open brackets. -/
def Mark.balance : Mark → Int
  | leftParen | leftBracket | leftBrace => 1
  | rightParen | rightBracket | rightBrace => -1
  | _ => 0

namespace Token

def opens (t : Token) : Bool :=
  match t.content with
  | .mark .leftParen | .mark .leftBracket | .mark .leftBrace => true
  | _ => false

def closes (t : Token) : Bool :=
  match t.content with
  | .mark .rightParen | .mark .rightBracket | .mark .rightBrace => true
  | _ => false

/-- What a token adds to the number of open brackets. -/
def balance (t : Token) : Int :=
  match t.content with
  | .mark m => m.balance
  | _ => 0

theorem balance_of_mark {t : Token} {m : Mark} (h : t.content = .mark m) : t.balance = m.balance := by
  rw [balance, h]

theorem balance_eq (t : Token) :
    t.balance = (if t.opens then 1 else 0) - (if t.closes then 1 else 0) := by
  obtain ⟨content, position, newline⟩ := t
  cases content with
  | mark m => cases m <;> rfl
  | number | string | name => rfl

end Token

/-- Opening brackets less closing ones. -/
def openBrackets (ts : List Token) : Int := ts.countP Token.opens - ts.countP Token.closes

theorem openBrackets_concat (ts : List Token) (t : Token) :
    openBrackets (ts ++ [t]) = openBrackets ts + t.balance := by
  rw [openBrackets, openBrackets, t.balance_eq, List.countP_append, List.countP_append]
  simp only [List.countP_singleton]
  cases t.opens <;> cases t.closes <;> simp <;> omega

/-! ### Resemblance -/

/-- The defect at another position. -/
def Defect.moved (f : Nat → Nat) (d : Defect) : Defect := { d with position := f d.position }

/-- `Resembles f n ts ts'` says that `ts'` are the tokens `ts` with positions changed by `f`
and perhaps with other line breaks inside brackets, of which `n` are open in front. -/
inductive Resembles (f : Nat → Nat) : Int → List Token → List Token → Prop
  | nil {n} : Resembles f n [] []
  | cons {n t t' ts ts'} (hcontent : t'.content = t.content) (hposition : t'.position = f t.position)
      (hbreak : n ≤ 0 → t'.newlineBefore = t.newlineBefore) (hrest : Resembles f (n + t.balance) ts ts') :
      Resembles f n (t :: ts) (t' :: ts')

/-- Cursors before tokens that resemble each other. `ahead` is what the brackets taken last
add to those that the cursors count. -/
structure Cursor.Resembles (f : Nat → Nat) (ahead : Int) (s s' : Cursor) : Prop where
  rest : Expr.Resembles f (s.brackets + ahead) s.rest s'.rest
  brackets : s'.brackets = s.brackets
  nesting : s'.nesting = s.nesting
  total : s'.total = s.total
  stop : s'.stop = f s.stop

namespace Cursor.Resembles

variable {f : Nat → Nat} {s s' : Cursor} {ahead : Int} {m : Mark}

/-- Both cursors are at the end, or before tokens that say the same. -/
theorem heads (h : s.Resembles f ahead s') :
    (s.rest = [] ∧ s'.rest = []) ∨
      ∃ t t' ts ts', s.rest = t :: ts ∧ s'.rest = t' :: ts' ∧ t'.content = t.content ∧
        t'.position = f t.position ∧ (s.brackets + ahead ≤ 0 → t'.newlineBefore = t.newlineBefore) ∧
        s.advance.Resembles f (ahead + t.balance) s'.advance := by
  obtain ⟨hrest, hbrackets, hnesting, htotal, hstop⟩ := h
  generalize hts : s.rest = ts at hrest
  generalize hts' : s'.rest = ts' at hrest
  cases hrest with
  | nil => exact .inl ⟨rfl, rfl⟩
  | cons hcontent hposition hbreak hrest =>
    refine .inr ⟨_, _, _, _, rfl, rfl, hcontent, hposition, hbreak, ?_, hbrackets, hnesting, htotal, hstop⟩
    rw [← Int.add_assoc, Cursor.advance, Cursor.advance, hts, hts']
    exact hrest

theorem isEmpty (h : s.Resembles f ahead s') : s'.rest.isEmpty = s.rest.isEmpty := by
  obtain ⟨hs, hs'⟩ | ⟨t, t', ts, ts', hs, hs', -⟩ := h.heads
  · rw [hs, hs']
  · rw [hs, hs']
    rfl

theorem position (h : s.Resembles f ahead s') : s'.position = f s.position := by
  unfold Cursor.position
  obtain ⟨hs, hs'⟩ | ⟨t, t', ts, ts', hs, hs', -, hposition, -⟩ := h.heads
  · rw [hs, hs']
    exact h.stop
  · rw [hs, hs']
    exact hposition

theorem mark? (h : s.Resembles f ahead s') : s'.mark? = s.mark? := by
  unfold Cursor.mark?
  obtain ⟨hs, hs'⟩ | ⟨⟨content, _, _⟩, ⟨_, _, _⟩, ts, ts', hs, hs', hcontent, -⟩ := h.heads
  · rw [hs, hs']
  · rw [hs, hs']
    cases hcontent
    cases content <;> rfl

theorem name? (h : s.Resembles f ahead s') : s'.name? = s.name? := by
  unfold Cursor.name?
  obtain ⟨hs, hs'⟩ | ⟨⟨content, _, _⟩, ⟨_, _, _⟩, ts, ts', hs, hs', hcontent, -⟩ := h.heads
  · rw [hs, hs']
  · rw [hs, hs']
    cases hcontent
    cases content <;> rfl

theorem isAt (h : s.Resembles f ahead s') (m : Mark) : s'.isAt m = s.isAt m := by
  rw [Cursor.isAt, Cursor.isAt, h.mark?]

/-- Outside brackets, line breaks are the same. -/
theorem atLineBreak (h : s.Resembles f 0 s') (hb : s.brackets = 0) : s'.atLineBreak = s.atLineBreak := by
  unfold Cursor.atLineBreak
  obtain ⟨hs, hs'⟩ | ⟨t, t', ts, ts', hs, hs', -, -, hbreak, -⟩ := h.heads
  · rw [hs, hs']
  · rw [hs, hs']
    exact hbreak (by rw [hb]; decide)

theorem isCut (h : s.Resembles f 0 s') : s'.isCut = s.isCut := by
  unfold Cursor.isCut
  rw [h.brackets]
  by_cases hb : s.brackets = 0
  · rw [h.atLineBreak hb]
  · rw [beq_false_of_ne hb, Bool.false_and, Bool.false_and]

theorem continuation? (h : s.Resembles f 0 s') : s'.continuation? = s.continuation? := by
  rw [Cursor.continuation?, Cursor.continuation?, h.isCut, h.mark?]

theorem continues (h : s.Resembles f 0 s') (m : Mark) : s'.continues m = s.continues m := by
  rw [continues_eq, continues_eq, h.continuation?]

theorem operator? (h : s.Resembles f 0 s') : s'.operator? = s.operator? := by
  rw [operator?_eq, operator?_eq, h.continuation?]

/-- Past a mark, its balance is ahead. -/
theorem advance (h : s.Resembles f 0 s') (hm : s.mark? = some m) :
    s.advance.Resembles f m.balance s'.advance := by
  obtain ⟨t, ht, hs⟩ := exists_before_of_mark? hm
  obtain ⟨hnil, -⟩ | ⟨t₁, t', ts, ts', hcons, -, -, -, -, hrest⟩ := h.heads
  · rw [hs] at hnil
    cases hnil
  · rw [hs] at hcons
    cases hcons
    rw [Token.balance_of_mark ht, Int.zero_add] at hrest
    exact hrest

/-- A name is no bracket. -/
theorem advance_of_name {x : String} (h : s.Resembles f 0 s') (hx : s.name? = some x) :
    s.advance.Resembles f 0 s'.advance := by
  obtain ⟨t, ht, hs⟩ := exists_before_of_name? hx
  obtain ⟨hnil, -⟩ | ⟨t₁, t', ts, ts', hcons, -, -, -, -, hrest⟩ := h.heads
  · rw [hs] at hnil
    cases hnil
  · rw [hs] at hcons
    cases hcons
    rw [Token.balance, ht] at hrest
    exact hrest

theorem nested (h : s.Resembles f ahead s') (n : Nat) :
    ({ s with nesting := n } : Cursor).Resembles f ahead { s' with nesting := n } :=
  ⟨h.rest, h.brackets, rfl, h.total, h.stop⟩

end Cursor.Resembles

/-! ### Results -/

/-- Results of two runs of a parser: the same answer with cursors that resemble each other
between the same brackets, or the same defect at a changed position. -/
inductive Agrees {α : Type} (f : Nat → Nat) (brackets : Nat) :
    EStateM.Result Defect Cursor α → EStateM.Result Defect Cursor α → Prop
  | ok {a s s'} (hs : s.Resembles f 0 s') (hb : s.brackets = brackets) :
      Agrees f brackets (.ok a s) (.ok a s')
  | error {d s s'} : Agrees f brackets (.error d s) (.error (d.moved f) s')

/-- What follows an answer starts between the brackets that it has left. -/
theorem Agrees.bind {α β : Type} {f : Nat → Nat} {b b' : Nat} {s s' : Cursor} {p : Parser α} {q : α → Parser β}
    (h : Agrees f b (p s) (p s'))
    (hq : ∀ a u u', u.Resembles f 0 u' → u.brackets = b → Agrees f b' (q a u) (q a u')) :
    Agrees f b' ((p >>= q) s) ((p >>= q) s') := by
  generalize hp : p s = r at h
  generalize hp' : p s' = r' at h
  cases h with
  | ok hs hb =>
    rw [bind_ok hp, bind_ok hp']
    exact hq _ _ _ hs hb
  | error =>
    rw [bind_error hp, bind_error hp']
    exact .error

namespace Parser

variable {α β : Type} {f : Nat → Nat} {ahead : Int} {b : Nat} {s s' : Cursor} {p : Parser α} {m : Mark}

/-- Whether a parser, from the first token after brackets that are ahead, only sees what
tokens say. -/
def Oblivious (f : Nat → Nat) (ahead : Int) (p : Parser α) : Prop :=
  ∀ s s', s.Resembles f ahead s' → Agrees f s.brackets (p s) (p s')

theorem oblivious_pure (a : α) : Oblivious f 0 (pure a : Parser α) := fun _ _ h => .ok h rfl

theorem oblivious_flaw (g : Flaw) : Oblivious f ahead (flaw g : Parser α) := by
  intro s s' h
  unfold flaw
  rw [h.position]
  exact .error

theorem Oblivious.bind {q : α → Parser β} (hp : Oblivious f ahead p) (hq : ∀ a, Oblivious f 0 (q a)) :
    Oblivious f ahead (p >>= q) := fun s s' h =>
  (hp s s' h).bind fun a u u' hu hb => hb ▸ hq a u u' hu

theorem Oblivious.map (hp : Oblivious f ahead p) (g : α → β) : Oblivious f ahead (g <$> p) := by
  rw [map_eq_pure_bind]
  exact hp.bind fun a => oblivious_pure _

/-! ### Single tokens -/

theorem agrees_advance {q : Parser α} (h : s.Resembles f 0 s') (hm : s.mark? = some m)
    (hq : Oblivious f m.balance q) :
    Agrees f s.brackets ((do advance; q : Parser α) s) ((do advance; q : Parser α) s') := by
  rw [advance_bind, advance_bind]
  exact hq _ _ (h.advance hm)

theorem agrees_next {q : Token → Parser α} (h : s.Resembles f 0 s')
    (hq : ∀ t t', t'.content = t.content → t'.position = f t.position →
      ∀ u u', u.Resembles f t.balance u' → Agrees f u.brackets (q t u) (q t' u')) :
    Agrees f s.brackets ((next >>= q) s) ((next >>= q) s') := by
  obtain ⟨hs, hs'⟩ | ⟨t, t', ts, ts', hs, hs', hcontent, hposition, -, hrest⟩ := h.heads
  · have hend : ∀ u : Cursor, u.rest = [] → next u = .error ⟨u.stop, .unexpectedEnd⟩ u := by
      intro u hu
      unfold next
      rw [hu]
    rw [bind_error (hend s hs), bind_error (hend s' hs'), h.stop]
    exact .error
  · have htakes : ∀ (u : Cursor) t ts, u.rest = t :: ts → next u = .ok t u.advance := by
      intro u t ts hu
      unfold next
      rw [hu]
    rw [bind_ok (htakes s t ts hs), bind_ok (htakes s' t' ts' hs')]
    rw [Int.zero_add] at hrest
    exact hq t t' hcontent hposition _ _ hrest

theorem agrees_expect {q : Parser α} (h : s.Resembles f 0 s')
    (hq : ∀ u u', u.Resembles f m.balance u' → u.brackets = s.brackets → Agrees f b (q u) (q u')) :
    Agrees f b ((do expect m; q : Parser α) s) ((do expect m; q : Parser α) s') := by
  by_cases hm : s.isAt m = true
  · have htakes : ∀ u : Cursor, u.isAt m = true → expect m u = .ok () u.advance := fun u hu => if_pos hu
    rw [bind_ok (htakes s hm), bind_ok (htakes s' ((h.isAt m).trans hm))]
    exact hq _ _ (h.advance (eq_of_beq hm)) rfl
  · have hrefuses : ∀ u : Cursor, u.isAt m ≠ true →
        expect m u = .error (if u.rest.isEmpty then ⟨u.stop, .unexpectedEnd⟩ else ⟨u.position, .expectedMark m⟩) u := by
      intro u hu
      unfold expect
      rw [if_neg hu]
      split <;> rfl
    rw [bind_error (hrefuses s hm), bind_error (hrefuses s' (by rwa [h.isAt m])), h.isEmpty, h.position, h.stop]
    split <;> exact .error

theorem oblivious_expect (hm : m.balance = 0) {q : Parser α} (hq : Oblivious f 0 q) :
    Oblivious f 0 (do expect m; q : Parser α) := fun _ _ h =>
  agrees_expect h fun u u' hu hb => hb ▸ hq u u' (hm ▸ hu)

theorem oblivious_expectName {q : String → Parser α} (hq : ∀ n, Oblivious f 0 (q n)) :
    Oblivious f 0 (expectName >>= q) := by
  intro s s' h
  unfold expectName
  rw [bind_assoc]
  refine agrees_next h fun t t' hcontent hposition u u' hu => ?_
  obtain ⟨content, position, _⟩ := t
  obtain ⟨_, _, _⟩ := t'
  cases hcontent
  cases hposition
  cases content with
  | name n => exact hq n u u' hu
  | number | string | mark => exact .error

/-! ### Nesting and brackets -/

theorem agrees_enter {q : Parser α} (h : s.Resembles f 0 s')
    (hq : ∀ n, Agrees f b (q { s with nesting := n }) (q { s' with nesting := n })) :
    Agrees f b ((do enter; q : Parser α) s) ((do enter; q : Parser α) s') := by
  have henter := enter_eq s
  have henter' := enter_eq s'
  rw [h.nesting, h.position] at henter'
  split at henter
  · rw [if_pos ‹_›] at henter'
    rw [bind_error henter, bind_error henter']
    exact .error
  · rw [if_neg ‹_›] at henter'
    rw [bind_ok henter, bind_ok henter']
    exact hq _

theorem Oblivious.settingNesting (hp : Oblivious f ahead p) (g : Nat → Nat) :
    Oblivious f ahead (settingNesting g p) := by
  intro s s' h
  have hagrees := hp s s' h
  unfold Parser.settingNesting
  generalize p s = r at hagrees
  generalize p s' = r' at hagrees
  cases hagrees with
  | @ok a u u' hu hb =>
    refine .ok ?_ hb
    rw [hu.nesting]
    exact hu.nested _
  | error => exact .error

theorem Oblivious.nested (hp : Oblivious f 0 p) : Oblivious f 0 (nested p) := fun _ _ h =>
  agrees_enter h fun n => hp.settingNesting _ _ _ (h.nested n)

theorem Oblivious.keepingNesting (hp : Oblivious f 0 p) : Oblivious f 0 (keepingNesting p) := by
  intro s s' h
  unfold Parser.keepingNesting
  rw [get_bind, get_bind, h.nesting]
  exact hp.settingNesting _ s s' h

/-- Between brackets, the one that opens is ahead at first, and the one that closes at last. -/
theorem Oblivious.inside {close : Mark} (hp : Oblivious f 0 p) (hclose : close.balance = -1) :
    Oblivious f 1 (inside close p) := by
  intro s s' h
  unfold Parser.inside
  rw [modify_bind, modify_bind]
  have hopen : ({ s with brackets := s.brackets + 1 } : Cursor).Resembles f 0
      { s' with brackets := s'.brackets + 1 } := by
    refine ⟨?_, congrArg (· + 1) h.brackets, h.nesting, h.total, h.stop⟩
    have hrest := h.rest
    simpa using hrest
  refine (hp _ _ hopen).bind fun a u u' hu hb => ?_
  refine agrees_expect hu fun v v' hv hvb => ?_
  have hbrackets : v.brackets = s.brackets + 1 := hvb.trans hb
  refine .ok ⟨?_, congrArg (· - 1) hv.brackets, hv.nesting, hv.total, hv.stop⟩ ?_
  · have hrest := hv.rest
    rw [hclose] at hrest
    have hcount : ((v.brackets - 1 : Nat) : Int) + 0 = v.brackets + -1 := by omega
    show Resembles f ((v.brackets - 1 : Nat) + 0) v.rest v'.rest
    rw [hcount]
    exact hrest
  · show v.brackets - 1 = s.brackets
    omega

/-! ### Loops -/

theorem Oblivious.items {close : Mark} (hp : Oblivious f 0 p) (rounds : Nat) :
    Oblivious f 0 (items p close rounds) := by
  induction rounds with
  | zero => exact oblivious_flaw _
  | succ rounds ih =>
    intro s s' h
    rw [Parser.items, get_bind, get_bind, h.isAt]
    split
    · exact .ok h rfl
    · have hmore : ∀ a, Oblivious f 0 (do let as ← Parser.items p close rounds; pure (a :: as)) := fun a =>
        ih.bind fun as => oblivious_pure _
      refine (hp s s' h).bind fun a u u' hu hb => ?_
      rw [get_bind, get_bind, hu.isAt, ← hb]
      split
      · exact hmore a u u' hu
      · exact oblivious_expect rfl (hmore a) u u' hu

theorem Oblivious.list {close : Mark} (hp : Oblivious f 0 p) (hclose : close.balance = -1) :
    Oblivious f 1 (list p close) := by
  intro s s' h
  rw [Parser.list, get_bind, get_bind, h.total]
  exact (hp.items (s.total + 1)).inside hclose s s' h

theorem oblivious_operands {right : Nat → Parser Tree} {least : Nat} (hright : ∀ l, Oblivious f 0 (right l))
    (left : Nat) : Oblivious f 0 (operands right least left) := by
  have hstay : ∀ {s s' : Cursor}, s.Resembles f 0 s' → s.Stops least → ∀ left,
      Agrees f s.brackets (operands right least left s) (operands right least left s') := by
    intro s s' h hstops left
    have hstops' : s'.Stops least := fun op hop => hstops op (h.operator?.symm.trans hop)
    rw [operands_of_stops hstops, operands_of_stops hstops']
    exact .ok h rfl
  induction left with
  | zero =>
    intro s s' h
    by_cases hstops : s.Stops least
    · exact hstay h hstops 0
    · obtain ⟨op, hop, hle⟩ := exists_of_not_stops hstops
      rw [operands_zero op hop hle, operands_zero op (h.operator?.trans hop) hle]
      exact oblivious_flaw _ s s' h
  | succ left ih =>
    intro s s' h
    by_cases hstops : s.Stops least
    · exact hstay h hstops (left + 1)
    · obtain ⟨op, hop, hle⟩ := exists_of_not_stops hstops
      rw [operands_succ op hop hle, operands_succ op (h.operator?.trans hop) hle]
      rw [Cursor.operator?_eq, Option.bind_eq_some_iff] at hop
      obtain ⟨m, hm, hop⟩ := hop
      have hplain : m.balance = 0 := by
        cases m <;> first | rfl | cases hop
      have hadvance := h.advance (Cursor.mark?_of_continuation? hm)
      rw [hplain] at hadvance
      exact ((hright op.level).bind fun t => ih.bind fun rest => oblivious_pure _) _ _ hadvance

theorem oblivious_binary {operand : Parser Tree} (hoperand : Oblivious f 0 operand) (levels : Nat) :
    ∀ least, Oblivious f 0 (binary operand levels least) := by
  induction levels with
  | zero => exact fun _ => hoperand
  | succ levels ih =>
    exact fun least => hoperand.bind fun first =>
      (oblivious_operands (fun l => ih (l + 1)) _).bind fun rest => oblivious_pure _

/-! ### Forms -/

section Forms

variable {expression operand : Parser Tree}

theorem oblivious_conditional (hexpression : Oblivious f 0 expression) (hoperand : Oblivious f 0 operand) :
    Oblivious f 0 (conditional expression operand) := by
  refine (oblivious_binary hoperand _ _).bind fun condition => ?_
  intro s s' h
  rw [get_bind, get_bind, h.continues]
  split
  · rename_i hm
    refine agrees_advance h (Cursor.mark?_of_continuation? (Cursor.continues_iff.mp hm)) ?_
    exact hexpression.bind fun yes =>
      oblivious_expect rfl (hexpression.bind fun no => oblivious_pure _)
  · exact .ok h rfl

theorem oblivious_field (hexpression : Oblivious f 0 expression) : Oblivious f 0 (field expression) := by
  intro s s' h
  refine agrees_next h fun t t' hcontent hposition u u' hu => ?_
  obtain ⟨content, position, _⟩ := t
  obtain ⟨_, _, _⟩ := t'
  cases hcontent
  cases hposition
  cases content with
  | name key | string key =>
    exact oblivious_expect rfl (hexpression.bind fun value => oblivious_pure (key, value)) u u' hu
  | number | mark => exact .error

theorem oblivious_primary (hexpression : Oblivious f 0 expression) : Oblivious f 0 (primary expression) := by
  intro s s' h
  refine agrees_next h fun t t' hcontent hposition u u' hu => ?_
  obtain ⟨content, position, _⟩ := t
  obtain ⟨_, _, _⟩ := t'
  cases hcontent
  cases hposition
  cases content with
  | number | string | name => exact .ok hu rfl
  | mark m =>
    cases m with
    | leftParen => exact hexpression.inside rfl u u' hu
    | leftBracket => exact (hexpression.list rfl).map Tree.array u u' hu
    | leftBrace => exact ((oblivious_field hexpression).list rfl).map Tree.record u u' hu
    | _ => exact .error

/-- What begins a postfix form is a mark. -/
theorem agrees_form {q : Parser α} (h : s.Resembles f 0 s') (hm : s.continues m = true)
    (hq : Oblivious f m.balance q) :
    Agrees f s.brackets ((do enter; advance; q : Parser α) s) ((do enter; advance; q : Parser α) s') := by
  have hmark : s.mark? = some m := Cursor.mark?_of_continuation? (Cursor.continues_iff.mp hm)
  exact agrees_enter h fun n => agrees_advance (h.nested n) hmark hq

/-- Whether the parsers of a depth only see what tokens say. -/
structure Level.Oblivious (f : Nat → Nat) (inner : Level) : Prop where
  expression : Parser.Oblivious f 0 inner.expression
  body : Parser.Oblivious f 0 inner.body
  unary : Parser.Oblivious f 0 inner.unary
  postfixes : ∀ t, Parser.Oblivious f 0 (inner.postfixes t)

theorem oblivious_postfixForms {inner : Level} (hinner : inner.Oblivious f) (t : Tree) :
    Oblivious f 0 (postfixForms inner t) := by
  intro s s' h
  unfold postfixForms
  rw [get_bind, get_bind, h.continues, h.continues, h.continues]
  split
  · refine agrees_form h ‹_› ?_
    exact oblivious_expectName fun field => hinner.postfixes _
  split
  · refine agrees_form h ‹_› ?_
    exact (hinner.expression.inside rfl).bind fun i => hinner.postfixes _
  split
  · refine agrees_form h ‹_› ?_
    exact (hinner.expression.list rfl).bind fun arguments => hinner.postfixes _
  · exact .ok h rfl

theorem oblivious_unaryForms {deeper : Parser Tree} {postfixes : Tree → Parser Tree}
    (hexpression : Oblivious f 0 expression) (hdeeper : Oblivious f 0 deeper)
    (hpostfixes : ∀ t, Oblivious f 0 (postfixes t)) :
    Oblivious f 0 (unaryForms expression deeper postfixes) := by
  intro s s' h
  unfold unaryForms
  rw [get_bind, get_bind, h.isAt, h.isAt]
  have hsign : ∀ op, Oblivious f 0 (do let t ← deeper; pure (Tree.unary op t)) := fun op =>
    hdeeper.bind fun t => oblivious_pure _
  split
  · exact agrees_advance (m := .minus) h (eq_of_beq ‹_›) (hsign _)
  split
  · exact agrees_advance (m := .bang) h (eq_of_beq ‹_›) (hsign _)
  · exact ((oblivious_primary hexpression).bind hpostfixes).keepingNesting s s' h

end Forms

/-! ### Depths -/

theorem oblivious_around {inner : Level} (hinner : inner.Oblivious f) : inner.around.Oblivious f := by
  have hexpression := hinner.body.nested
  have hpostfixes := oblivious_postfixForms hinner
  have hunary := oblivious_unaryForms hexpression hinner.unary.nested hpostfixes
  exact ⟨hexpression, oblivious_conditional hexpression hunary, hunary, hpostfixes⟩

theorem oblivious_level (f : Nat → Nat) (n : Nat) : (level n).Oblivious f := by
  induction n with
  | zero => exact ⟨oblivious_flaw _, oblivious_flaw _, oblivious_flaw _, fun _ => oblivious_flaw _⟩
  | succ n ih => exact oblivious_around ih

theorem oblivious_expression (f : Nat → Nat) : Oblivious f 0 expression := (oblivious_level f _).expression

/-! ### Scripts -/

theorem oblivious_statement (f : Nat → Nat) : Oblivious f 0 statement := by
  intro s s' h
  have hexpression := oblivious_expression f
  unfold statement
  rw [get_bind, get_bind, h.name?]
  cases hname : s.name? with
  | none => exact hexpression.map Statement.yield s s' h
  | some word =>
    dsimp only
    have hadvance := h.advance_of_name hname
    split
    · rw [advance_bind, advance_bind]
      refine oblivious_expectName (fun name => ?_) _ _ hadvance
      exact oblivious_expect rfl (hexpression.bind fun value => oblivious_pure _)
    split
    · rw [advance_bind, advance_bind]
      exact hexpression.map Statement.answer _ _ hadvance
    · exact hexpression.map Statement.yield s s' h

theorem isSeparator_of_content {t t' : Token} (h : t'.content = t.content) : isSeparator t' = isSeparator t := by
  rw [isSeparator, isSeparator, h]

theorem balance_of_isSeparator {t : Token} (h : isSeparator t = true) : t.balance = 0 := by
  unfold isSeparator at h
  split at h
  · rename_i hcontent
    rw [Token.balance, hcontent]
    rfl
  · cases h

theorem resembles_dropWhile {n : Int} {ts ts' : List Token} (h : Resembles f n ts ts') :
    Resembles f n (ts.dropWhile isSeparator) (ts'.dropWhile isSeparator) := by
  induction h with
  | nil => exact .nil
  | @cons n t t' ts ts' hcontent hposition hbreak hrest ih =>
    rw [List.dropWhile_cons, List.dropWhile_cons, isSeparator_of_content hcontent]
    split
    · rw [balance_of_isSeparator ‹_›, Int.add_zero] at ih
      exact ih
    · exact .cons hcontent hposition hbreak hrest

/-- Statements are parted outside brackets, where line breaks are the same. -/
theorem agrees_statements (rounds : Nat) :
    ∀ {s s' : Cursor}, s.Resembles f 0 s' → s.brackets = 0 →
      Agrees f 0 (statements rounds s) (statements rounds s') := by
  induction rounds with
  | zero => exact fun h hb => .ok h hb
  | succ rounds ih =>
    intro s s' h hb
    rw [statements, modify_bind, modify_bind, get_bind, get_bind]
    have hseparated : ({ s with rest := s.rest.dropWhile isSeparator } : Cursor).Resembles f 0
        { s' with rest := s'.rest.dropWhile isSeparator } :=
      ⟨resembles_dropWhile h.rest, h.brackets, h.nesting, h.total, h.stop⟩
    rw [hseparated.isEmpty]
    split
    · exact .ok hseparated hb
    · refine (oblivious_statement f _ _ hseparated).bind fun first u u' hu hub => ?_
      have hub : u.brackets = 0 := hub.trans hb
      have hmore : ∀ {v v' : Cursor}, v.Resembles f 0 v' → v.brackets = 0 →
          Agrees f 0 ((do let rest ← statements rounds; pure (first :: rest) : Parser (List Statement)) v)
            ((do let rest ← statements rounds; pure (first :: rest) : Parser (List Statement)) v') := fun hv hvb =>
        (ih hv hvb).bind fun rest w w' hw hwb => .ok hw hwb
      rw [get_bind, get_bind, hu.isEmpty, hu.isAt, hu.atLineBreak hub]
      split
      · exact (oblivious_flaw .unexpectedToken u u' hu).bind fun _ v v' hv hvb => hmore hv (hvb.trans hub)
      · exact hmore hu hub

theorem length_eq_of_resembles {n : Int} {ts ts' : List Token} (h : Resembles f n ts ts') :
    ts'.length = ts.length := by
  induction h with
  | nil => rfl
  | cons _ _ _ _ ih => exact congrArg (· + 1) ih

/-- **Two sources.** Tokens that resemble each other spell the same statements, or have the
same defect at the same token. -/
theorem parse_resembling {ts ts' : List Token} (h : Resembles f 0 ts ts') (stop : Nat) :
    parse ts' (f stop) = (parse ts stop).mapError (Defect.moved f) := by
  have hstart : (⟨ts, 0, 0, ts.length, stop⟩ : Cursor).Resembles f 0 ⟨ts', 0, 0, ts.length, f stop⟩ :=
    ⟨h, rfl, rfl, rfl, rfl⟩
  have hagrees := agrees_statements (ts.length + 1) hstart rfl
  unfold parse
  rw [length_eq_of_resembles h]
  generalize statements (ts.length + 1) ⟨ts, 0, 0, ts.length, stop⟩ = r at hagrees
  generalize statements (ts.length + 1) ⟨ts', 0, 0, ts.length, f stop⟩ = r' at hagrees
  cases hagrees <;> rfl

end Parser

/-! ### Line breaks inside brackets -/

/-- Line breaks are made and removed as `breaks` says, at the tokens that have more opening
brackets in front of them than closing ones. -/
def rebreak (breaks : Nat → Bool) (ts : List Token) : List Token :=
  ts.mapIdx fun i t => if 0 < openBrackets (ts.take i) then { t with newlineBefore := breaks i } else t

theorem resembles_rebreak (breaks : Nat → Bool) (before ts : List Token) :
    Resembles id (openBrackets before) ts
      (ts.mapIdx fun i t =>
        if 0 < openBrackets (before ++ ts.take i) then { t with newlineBefore := breaks i } else t) := by
  induction ts generalizing before breaks with
  | nil => exact .nil
  | cons t ts ih =>
    rw [List.mapIdx_cons, List.take_zero, List.append_nil]
    refine .cons ?_ ?_ ?_ ?_
    · split <;> rfl
    · split <;> rfl
    · intro hclosed
      rw [if_neg (by omega)]
    · have hrest := ih (fun i => breaks (i + 1)) (before ++ [t])
      rw [openBrackets_concat] at hrest
      simp only [List.append_assoc, List.singleton_append] at hrest
      exact hrest

/-- **Line breaks inside brackets do not matter.** Whatever the tokens, well formed or not:
with other line breaks at any of those that stand inside brackets, a closing bracket
itself included, they spell the same statements or have the same defect. -/
theorem parse_rebreak (breaks : Nat → Bool) (ts : List Token) (stop : Nat) :
    parse (rebreak breaks ts) stop = parse ts stop := by
  have hresembles : Resembles id 0 ts (rebreak breaks ts) := resembles_rebreak breaks [] ts
  have hmoved : Defect.moved id = id := rfl
  have hparse := Parser.parse_resembling hresembles stop
  rw [hmoved] at hparse
  rw [id_eq] at hparse
  rw [hparse]
  cases parse ts stop <;> rfl

/-! ### Positions of defects -/

/-- Tokens that are numbered from `k` on are back at their positions when `f` takes the
numbers to these. -/
theorem resembles_numbered {f : Nat → Nat} {ts : List Token} {k : Nat} {n : Int}
    (hf : ∀ i t, ts[i]? = some t → f (k + i) = t.position) :
    Resembles f n (ts.mapIdx fun i t => { t with position := k + i }) ts := by
  induction ts generalizing k n with
  | nil => exact .nil
  | cons t ts ih =>
    rw [List.mapIdx_cons]
    refine .cons rfl (hf 0 t rfl).symm (fun _ => rfl) ?_
    have hshift : (fun i (t : Token) => { t with position := k + (i + 1) }) =
        fun i (t : Token) => { t with position := k + 1 + i } := by
      funext i t
      rw [Nat.add_comm i 1, Nat.add_assoc]
    rw [hshift]
    refine ih fun i t' ht' => ?_
    rw [Nat.add_assoc, Nat.add_comm 1 i]
    exact hf (i + 1) t' ht'

/-- Where the token with a number stands; past the last one, where the source stops. -/
def positionOf (ts : List Token) (stop i : Nat) : Nat := (ts[i]?.map Token.position).getD stop

theorem positionOf_of_getElem? {ts : List Token} {t : Token} {i : Nat} (h : ts[i]? = some t) (stop : Nat) :
    positionOf ts stop i = t.position := by
  rw [positionOf, h]
  rfl

theorem positionOf_of_none {ts : List Token} {i : Nat} (h : ts[i]? = none) (stop : Nat) :
    positionOf ts stop i = stop := by
  rw [positionOf, h]
  rfl

/-- A defect of tokens shows at one of them or at the end of the source. The parser cannot
make up a position, as it would have to make up the same one for tokens that are numbered. -/
theorem position_of_parse {ts : List Token} {stop : Nat} {d : Defect} (h : parse ts stop = .error d) :
    d.position = stop ∨ ∃ t ∈ ts, d.position = t.position := by
  have hnumbered : Resembles (positionOf ts stop) 0 (ts.mapIdx fun i t => { t with position := 0 + i }) ts := by
    refine resembles_numbered fun i t ht => ?_
    rw [Nat.zero_add]
    exact positionOf_of_getElem? ht stop
  have hparse := Parser.parse_resembling hnumbered ts.length
  rw [positionOf_of_none (List.getElem?_eq_none (Nat.le_refl _)), h] at hparse
  cases hindexed : parse (ts.mapIdx fun i t => { t with position := 0 + i }) ts.length with
  | ok statements =>
    rw [hindexed] at hparse
    cases hparse
  | error d₀ =>
    rw [hindexed] at hparse
    cases hparse
    show positionOf ts stop d₀.position = stop ∨ ∃ t ∈ ts, positionOf ts stop d₀.position = t.position
    cases ht : ts[d₀.position]? with
    | none => exact .inl (positionOf_of_none ht stop)
    | some t => exact .inr ⟨t, List.mem_of_getElem? ht, positionOf_of_getElem? ht stop⟩

end PoolScaling.Expr
