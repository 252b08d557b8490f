import PoolScaling.Proofs.Expr.Soundness

/-! What the parser has to accept.

A parser takes the tokens of a phrase when what follows them does not continue the
phrase. The derivation of an operation has its operators nested to the left, while
the loop over operands goes from left to right; `Runs` is the invariant between the
two. `complete` follows the derivations, and with soundness the parser answers
exactly what the tokens spell (`parse_eq_ok_iff`). -/
namespace PoolScaling.Expr.Parser

variable {α : Type}

/-! ### Operations -/

/-- From `s₀` to `s` the parser `operand` and the loop after it read the run `f`, `r`: at
any level that is loose enough, the loop goes on as it does at `s`. -/
structure Runs (operand : Parser Tree) (l : Nat) (f : Tree) (r : List (BinaryOp × Tree)) (s₀ s : Cursor) :
    Prop where
  short : r.length < maxOperands
  single : BinaryOp.levels ≤ l → r = [] ∧ operand s₀ = .ok f s
  loop : ∃ u, operand s₀ = .ok f u ∧ ∀ levels least left, least ≤ l → BinaryOp.levels ≤ levels + least + 1 →
    operands (fun l => binary operand levels (l + 1)) least (left + r.length) u = (do
      let rest ← operands (fun l => binary operand levels (l + 1)) least left
      pure (r ++ rest)) s

namespace Runs

variable {operand : Parser Tree} {l : Nat} {f f' : Tree} {r r' : List (BinaryOp × Tree)} {s₀ s₁ s : Cursor}

theorem of_operand (h : operand s₀ = .ok f s) : Runs operand BinaryOp.levels f [] s₀ s := by
  refine ⟨by decide, fun _ => ⟨rfl, h⟩, s, h, fun levels least left _ _ => ?_⟩
  exact (congrFun (bind_pure (operands (fun l => Parser.binary operand levels (l + 1)) least left)) s).symm

theorem loosen (h : Runs operand (l + 1) f r s₀ s) (hl : l < BinaryOp.levels) : Runs operand l f r s₀ s := by
  obtain ⟨u, hu, hloop⟩ := h.loop
  exact ⟨h.short, fun hge => absurd hl (Nat.not_lt.mpr hge), u, hu, fun levels least left hle hlevels =>
    hloop levels least left (Nat.le_succ_of_le hle) hlevels⟩

/-- A run that stops is the whole operation. -/
theorem binary (h : Runs operand l f r s₀ s) (hstops : s.Stops l) (levels : Nat)
    (hlevels : BinaryOp.levels ≤ levels + l) : Parser.binary operand levels l s₀ = .ok (.ofRun f r) s := by
  cases levels with
  | zero =>
    obtain ⟨rfl, hoperand⟩ := h.single (by omega)
    exact hoperand
  | succ levels =>
    obtain ⟨u, hu, hloop⟩ := h.loop
    have hleft : maxOperands - 1 = (maxOperands - 1 - r.length) + r.length := by
      have := h.short
      omega
    have hoperands := hloop levels l (maxOperands - 1 - r.length) (Nat.le_refl l) (by omega)
    rw [bind_ok (operands_of_stops hstops), List.append_nil, ← hleft] at hoperands
    rw [Parser.binary, bind_ok hu, bind_ok hoperands]
    rfl

/-- One more operator with its right operand. -/
theorem apply {op : BinaryOp} (h : Runs operand op.level f r s₀ s₁) (hop : s₁.operator? = some op)
    (h' : Runs operand (op.level + 1) f' r' s₁.advance s) (hstops : s.Stops (op.level + 1))
    (hshort : r.length + 1 < maxOperands) :
    Runs operand op.level f (r ++ [(op, .ofRun f' r')]) s₀ s := by
  obtain ⟨u, hu, hloop⟩ := h.loop
  refine ⟨by simpa using hshort, fun hge => absurd op.level_lt_levels (Nat.not_lt.mpr hge), u, hu, ?_⟩
  intro levels least left hle hlevels
  have hright := h'.binary hstops levels (by omega)
  have hround : left + (r ++ [(op, Tree.ofRun f' r')]).length = left + 1 + r.length := by
    rw [List.length_append, List.length_singleton]
    omega
  rw [hround, hloop levels least (left + 1) hle hlevels, bind_of_eq (operands_succ op hop hle), bind_assoc,
    bind_ok hright]
  simp only [bind_assoc, pure_bind, List.append_assoc, List.singleton_append]

end Runs

/-! ### Lists -/

section Lists

variable {item : Parser α} {close : Mark} {a : α} {as : List α} {s : Cursor} {ts us : List Token}

theorem items_nil {rounds : Nat} (h : s.isAt close = true) (hr : 0 < rounds) :
    items item close rounds s = .ok [] s := by
  obtain ⟨rounds, rfl⟩ := Nat.exists_eq_succ_of_ne_zero (Nat.ne_zero_of_lt hr)
  rw [items, get_bind, if_pos h]
  rfl

theorem items_last {rounds : Nat} (hstart : (s.before ts).isAt close = false)
    (hitem : item (s.before ts) = .ok a s) (h : s.isAt close = true) (hr : 1 < rounds) :
    items item close rounds (s.before ts) = .ok [a] s := by
  obtain ⟨rounds, rfl⟩ := Nat.exists_eq_succ_of_ne_zero (Nat.ne_zero_of_lt hr)
  rw [items, get_bind, if_neg (by simp [hstart]), bind_ok hitem, get_bind, if_pos h]
  show (items item close rounds >>= _) s = _
  rw [bind_ok (items_nil h (Nat.lt_of_succ_lt_succ hr))]
  rfl

theorem items_more {rounds : Nat} {c : Token} (hstart : (s.before (ts ++ c :: us)).isAt close = false)
    (hitem : item (s.before (ts ++ c :: us)) = .ok a (s.before (c :: us)))
    (hc : c.content = .mark .comma) (hclose : close ≠ .comma)
    (hitems : items item close rounds (s.before us) = .ok as s) :
    items item close (rounds + 1) (s.before (ts ++ c :: us)) = .ok (a :: as) s := by
  have hcomma : (s.before (c :: us)).isAt close = false := by
    rw [Cursor.isAt_before hc]
    simpa using fun h => hclose h.symm
  rw [items, get_bind, if_neg (by simp [hstart]), bind_ok hitem, get_bind, if_neg (by simp [hcomma])]
  have hexpect : expect .comma (s.before (c :: us)) = .ok () (s.before us) :=
    expect_eq_ok.mpr ⟨c, hc, by simp⟩
  rw [bind_ok hexpect]
  show (items item close rounds >>= _) _ = _
  rw [bind_ok hitems]
  rfl

theorem inside_ok {p : Parser α} {c : Token} (hc : c.content = .mark close)
    (h : p (({ s with brackets := s.brackets + 1 }.before [c]).before ts) =
      .ok a ({ s with brackets := s.brackets + 1 }.before [c])) :
    inside close p (s.before (ts ++ [c])) = .ok a s := by
  refine inside_eq_ok.mpr ⟨c, { s with brackets := s.brackets + 1 }, ?_, hc, rfl⟩
  rw [Cursor.before_before] at h
  exact h

end Lists

/-! ### Postfix forms -/

section Forms

variable {inner : Level} {t : Tree} {s : Cursor}

theorem enter_ok (h : s.nesting < maxNesting) : enter s = .ok () { s with nesting := s.nesting + 1 } :=
  enter_eq_ok.mpr ⟨h, rfl⟩

theorem postfixForms_settled (h : s.Settled) : postfixForms inner t s = .ok t s := by
  have hnone : ∀ m ∈ Cursor.postfixMarks, ¬ s.continues m = true := fun m hm hcontinues =>
    h m hm (Cursor.continues_iff.mp hcontinues)
  rw [postfixForms, get_bind, if_neg (hnone .dot (by decide)), if_neg (hnone .leftBracket (by decide)),
    if_neg (hnone .leftParen (by decide))]
  rfl

theorem postfixForms_member (h : s.continuation? = some .dot) (hlt : s.nesting < maxNesting) :
    postfixForms inner t s = (do
      let f ← expectName
      inner.postfixes (.member t f)) { s with nesting := s.nesting + 1 }.advance := by
  rw [postfixForms, get_bind, if_pos (Cursor.continues_iff.mpr h), bind_ok (enter_ok hlt), advance_bind]

theorem postfixForms_index (h : s.continuation? = some .leftBracket) (hlt : s.nesting < maxNesting) :
    postfixForms inner t s = (do
      let x ← inside .rightBracket inner.expression
      inner.postfixes (.index t x)) { s with nesting := s.nesting + 1 }.advance := by
  rw [postfixForms, get_bind, if_neg (by simp [Cursor.continues_eq, h]), if_pos (Cursor.continues_iff.mpr h),
    bind_ok (enter_ok hlt), advance_bind]

theorem postfixForms_call (h : s.continuation? = some .leftParen) (hlt : s.nesting < maxNesting) :
    postfixForms inner t s = (do
      let as ← list inner.expression .rightParen
      inner.postfixes (.call t as)) { s with nesting := s.nesting + 1 }.advance := by
  rw [postfixForms, get_bind, if_neg (by simp [Cursor.continues_eq, h]),
    if_neg (by simp [Cursor.continues_eq, h]), if_pos (Cursor.continues_iff.mpr h), bind_ok (enter_ok hlt),
    advance_bind]

end Forms

/-! ### Depths -/

/-- The parsers at a nesting. -/
def levelAt (k : Nat) : Level := level (maxNesting + 1 - k)

section Depths

variable {k : Nat}

theorem levelAt_eq (h : k ≤ maxNesting) : levelAt k = (levelAt (k + 1)).around := by
  have hsub : maxNesting + 1 - k = maxNesting + 1 - (k + 1) + 1 := by omega
  rw [levelAt, hsub]
  rfl

theorem expression_eq (h : k ≤ maxNesting) : (levelAt k).expression = nested (levelAt (k + 1)).body := by
  rw [levelAt_eq h]
  rfl

theorem body_eq (h : k ≤ maxNesting) :
    (levelAt k).body = conditional (levelAt k).expression (levelAt k).unary := by
  rw [levelAt_eq h]
  rfl

theorem unary_eq (h : k ≤ maxNesting) :
    (levelAt k).unary =
      unaryForms (levelAt k).expression (nested (levelAt (k + 1)).unary) (levelAt k).postfixes := by
  rw [levelAt_eq h]
  rfl

theorem postfixes_eq (h : k ≤ maxNesting) : (levelAt k).postfixes = postfixForms (levelAt (k + 1)) := by
  rw [levelAt_eq h]
  rfl

end Depths

/-! ### Phrases -/

/-- A cursor at a nesting, inside brackets or not, with room for tokens before it. -/
structure Stands (k : Nat) (i : Bool) (ts : List Token) (s : Cursor) : Prop where
  nesting : s.nesting = k
  inside : s.inside = i
  room : ts.length + s.rest.length ≤ s.total

theorem Stands.before {k : Nat} {i : Bool} {ts us : List Token} {s : Cursor} (h : Stands k i (ts ++ us) s) :
    Stands k i ts (s.before us) := by
  refine ⟨h.nesting, h.inside, ?_⟩
  have := h.room
  simp only [List.length_append, Cursor.before_rest, Cursor.before_total] at this ⊢
  omega

theorem Stands.after {k : Nat} {i : Bool} {ts us : List Token} {s : Cursor} (h : Stands k i (ts ++ us) s) :
    Stands k i us s := by
  refine ⟨h.nesting, h.inside, ?_⟩
  have := h.room
  simp only [List.length_append] at this
  omega

theorem Stands.tail {k : Nat} {i : Bool} {t : Token} {ts : List Token} {s : Cursor}
    (h : Stands k i (t :: ts) s) : Stands k i ts s :=
  ⟨h.nesting, h.inside, Nat.le_of_succ_le (by simpa [Nat.succ_add] using h.room)⟩

theorem Stands.deeper {k : Nat} {i : Bool} {ts : List Token} {s : Cursor} (h : Stands k i ts s) :
    Stands (k + 1) i ts { s with nesting := s.nesting + 1 } :=
  ⟨congrArg (· + 1) h.nesting, h.inside, h.room⟩

theorem Stands.opened {k : Nat} {i : Bool} {ts : List Token} {c : Token} {s : Cursor}
    (h : Stands k i (ts ++ [c]) s) : Stands k true ts ({ s with brackets := s.brackets + 1 }.before [c]) :=
  ⟨h.nesting, by simp [Cursor.inside], h.before.room⟩

/-- The loop over items takes the tokens of `as` up to a closing mark. -/
def TakesList (item : Parser α) (ts : List Token) (s : Cursor) (as : List α) : Prop :=
  ∀ close ∈ Cursor.closers, close ≠ .comma → s.isAt close = true →
    ∀ rounds, as.length < rounds → items item close rounds (s.before ts) = .ok as s

/-- What the parser of a phrase has to do with tokens that spell it, from the cursor before
them to the cursor `s` behind them, when what follows does not continue the phrase. -/
def Takes (k : Nat) (ts : List Token) (s : Cursor) : Phrase → Prop
  | .expression t => s.Ends → (levelAt k).expression (s.before ts) = .ok t s
  | .body t => s.Ends → (levelAt k).body (s.before ts) = .ok t s
  | .operation l f r => s.Closes (l + 1) → Runs (levelAt k).unary l f r (s.before ts) s
  | .unary t => s.Settled → (levelAt k).unary (s.before ts) = .ok t s
  | .postfixed c t => (primary (levelAt k).expression >>= (levelAt k).postfixes) (s.before ts) =
      (levelAt (k + c)).postfixes t { s with nesting := k + c }
  | .primary t => primary (levelAt k).expression (s.before ts) = .ok t s
  | .items as => TakesList (levelAt k).expression ts s as
  | .field f => s.Ends → field (levelAt k).expression (s.before ts) = .ok f s
  | .fields fs => TakesList (field (levelAt k).expression) ts s fs

/-- The parser of a phrase takes the tokens that spell it. -/
def Completes (k : Nat) (i : Bool) (phrase : Phrase) (ts : List Token) : Prop :=
  k ≤ maxNesting → ∀ s, Stands k i ts s → Takes k ts s phrase

section Phrases

variable {k c : Nat} {i : Bool} {t x : Tree} {ts us vs : List Token}

theorem completes_expression (hlt : k < maxNesting) (ih : Completes (k + 1) i (.body t) ts) :
    Completes k i (.expression t) ts := by
  intro hk s hs hends
  cases hs.nesting
  rw [expression_eq hk]
  refine nested_eq_ok.mpr ⟨hlt, { s with nesting := s.nesting + 1 }, ?_, rfl⟩
  have hdeeper : ({ s with nesting := s.nesting + 1 } : Cursor).Ends :=
    ⟨⟨hends.settled, hends.stops⟩, hends.question_ne⟩
  exact ih hlt _ hs.deeper hdeeper

theorem completes_plain {f : Tree} {r : List (BinaryOp × Tree)} (ih : Completes k i (.operation 0 f r) ts) :
    Completes k i (.body (.ofRun f r)) ts := by
  intro hk s hs hends
  have hrun := ih hk s hs (hends.toCloses.mono (Nat.zero_le 1))
  have hquestion : s.continues .question = false := by
    rw [Cursor.continues_eq]
    simpa using hends.question_ne
  rw [body_eq hk, conditional, bind_ok (hrun.binary hends.stops BinaryOp.levels (Nat.le_refl _)), get_bind,
    if_neg (by simp [hquestion])]
  rfl

theorem completes_conditional {f yes no : Tree} {r : List (BinaryOp × Tree)} {q m : Token}
    (ihrun : Completes k i (.operation 0 f r) ts) (hq : q.content = .mark .question) (hjoins : q.joins i)
    (ihyes : Completes k i (.expression yes) us) (hm : m.content = .mark .colon)
    (ihno : Completes k i (.expression no) vs) :
    Completes k i (.body (.conditional (.ofRun f r) yes no)) (ts ++ q :: (us ++ m :: vs)) := by
  intro hk s hs hends
  have hafter := hs.after.tail
  have hrun := ihrun hk _ hs.before (Cursor.closes_of_mark (Cursor.mark?_before.mpr hq) (by decide) (by decide))
  have hstops : (s.before (q :: (us ++ m :: vs))).Stops 0 :=
    (Cursor.closes_of_mark (Cursor.mark?_before.mpr hq) (by decide) (by decide)).stops
  have hquestion : (s.before (q :: (us ++ m :: vs))).continues .question = true :=
    Cursor.continues_iff.mpr (Cursor.continuation?_before.mpr ⟨hq, hs.inside ▸ hjoins⟩)
  have hyes := ihyes hk _ hafter.before (Cursor.ends_of_mark (Cursor.mark?_before.mpr hm) (by decide))
  have hno := ihno hk s hafter.after.tail hends
  rw [Cursor.before_before] at hrun hyes
  have hcolon : expect .colon (s.before (m :: vs)) = .ok () (s.before vs) :=
    expect_eq_ok.mpr ⟨m, hm, by simp⟩
  rw [body_eq hk, conditional, bind_ok (hrun.binary hstops BinaryOp.levels (Nat.le_refl _)), get_bind,
    if_pos hquestion, advance_bind, Cursor.advance_before, bind_ok hyes, bind_ok hcolon, bind_ok hno]
  rfl

theorem completes_apply {f f' : Tree} {r r' : List (BinaryOp × Tree)} {m : Token} {op : BinaryOp}
    (ihrun : Completes k i (.operation op.level f r) ts) (hop : m.operator? = some op) (hjoins : m.joins i)
    (ihright : Completes k i (.operation (op.level + 1) f' r') us) (hshort : r.length + 1 < maxOperands) :
    Completes k i (.operation op.level f (r ++ [(op, .ofRun f' r')])) (ts ++ m :: us) := by
  intro hk s hs hcloses
  have hrun := ihrun hk _ hs.before (Cursor.closes_before hop)
  have hright := ihright hk s hs.after.tail (hcloses.mono (Nat.le_succ _))
  rw [Cursor.before_before] at hrun
  exact hrun.apply (Cursor.operator?_before hop (hs.inside ▸ hjoins)) hright hcloses.stops hshort

theorem completes_sign {op : UnaryOp} {m : Token} (hm : m.content = .mark op.mark) (hlt : k < maxNesting)
    (ih : Completes (k + 1) i (.unary t) ts) : Completes k i (.unary (.unary op t)) (m :: ts) := by
  intro hk s hs hsettled
  cases hs.nesting
  have hdeeper : nested (levelAt (s.nesting + 1)).unary (s.before ts) = .ok t s :=
    nested_eq_ok.mpr ⟨hlt, { s with nesting := s.nesting + 1 }, ih hlt _ hs.tail.deeper hsettled, rfl⟩
  rw [unary_eq hk, unaryForms, get_bind]
  cases op with
  | negate =>
    have hminus : (s.before (m :: ts)).isAt .minus = true := Cursor.isAt_before hm
    rw [if_pos hminus, advance_bind, Cursor.advance_before, bind_ok hdeeper]
    rfl
  | not =>
    have hminus : (s.before (m :: ts)).isAt .minus = false := Cursor.isAt_before hm
    have hbang : (s.before (m :: ts)).isAt .bang = true := Cursor.isAt_before hm
    rw [if_neg (by simp [hminus]), if_pos hbang, advance_bind, Cursor.advance_before, bind_ok hdeeper]
    rfl

theorem completes_bare (h : Spells k i (.postfixed c t) ts) (ih : Completes k i (.postfixed c t) ts) :
    Completes k i (.unary t) ts := by
  intro hk s hs hsettled
  have hforms : (primary (levelAt k).expression >>= (levelAt k).postfixes) (s.before ts) =
      .ok t { s with nesting := k + c } := by
    rw [ih hk s hs, postfixes_eq (h.depth_le hk)]
    exact postfixForms_settled hsettled
  obtain ⟨first, rest, rfl, hfirst⟩ := h.head rfl
  have hnot : ∀ m ∉ (Phrase.postfixed c t).openers, (s.before (first :: rest)).isAt m = false := by
    intro m hm
    rw [Bool.eq_false_iff]
    intro hat
    exact hm (hfirst m (Cursor.mark?_before.mp (eq_of_beq hat)))
  rw [unary_eq hk, unaryForms, get_bind, if_neg (by rw [hnot .minus (by simp [Phrase.openers])]; decide),
    if_neg (by rw [hnot .bang (by simp [Phrase.openers])]; decide)]
  refine keepingNesting_eq_ok.mpr ⟨_, hforms, ?_⟩
  cases hs.nesting
  rfl

theorem completes_primary (ih : Completes k i (.primary t) ts) : Completes k i (.postfixed 0 t) ts := by
  intro hk s hs
  cases hs.nesting
  exact bind_ok (ih hk s hs)

/-- One more postfix form, which begins with the mark `m`. -/
theorem completes_form {t' : Tree} {d : Token} {m : Mark} (ih : Completes k i (.postfixed c t) ts)
    (hlt : k + c < maxNesting) (hd : d.content = .mark m) (hjoins : d.joins i)
    (hform : ∀ s, Stands (k + c) i us s → s.nesting < maxNesting →
      (s.before (d :: us)).continuation? = some m →
      postfixForms (levelAt (k + c + 1)) t (s.before (d :: us)) =
        (levelAt (k + c + 1)).postfixes t' { s with nesting := s.nesting + 1 }) :
    Completes k i (.postfixed (c + 1) t') (ts ++ d :: us) := by
  intro hk s hs
  have hbefore : (primary (levelAt k).expression >>= (levelAt k).postfixes) ((s.before (d :: us)).before ts) =
      (levelAt (k + c)).postfixes t ({ s with nesting := k + c }.before (d :: us)) := ih hk _ hs.before
  have hcontinuation : ({ s with nesting := k + c }.before (d :: us)).continuation? = some m :=
    Cursor.continuation?_before.mpr ⟨hd, hs.inside ▸ hjoins⟩
  rw [Cursor.before_before, postfixes_eq (Nat.le_of_lt hlt),
    hform { s with nesting := k + c } ⟨rfl, hs.inside, hs.after.tail.room⟩ hlt hcontinuation] at hbefore
  exact hbefore

theorem completes_member {f : String} {d m : Token} (ih : Completes k i (.postfixed c t) ts)
    (hlt : k + c < maxNesting) (hd : d.content = .mark .dot) (hjoins : d.joins i) (hm : m.content = .name f) :
    Completes k i (.postfixed (c + 1) (.member t f)) (ts ++ [d, m]) := by
  refine completes_form ih hlt hd hjoins fun s hs hs' hdot => ?_
  have hname : expectName ({ s with nesting := s.nesting + 1 }.before [m]) =
      .ok f { s with nesting := s.nesting + 1 } := expectName_eq_ok.mpr ⟨m, hm, rfl⟩
  exact (postfixForms_member hdot hs').trans (bind_ok hname)

/-- A bracketed expression. -/
theorem inside_expression {close : Mark} {e : Token} {s : Cursor} (ih : Completes k true (.expression t) ts)
    (hk : k ≤ maxNesting) (hs : Stands k i (ts ++ [e]) s) (he : e.content = .mark close)
    (hclose : close ∈ Cursor.closers) :
    inside close (levelAt k).expression (s.before (ts ++ [e])) = .ok t s :=
  inside_ok he (ih hk _ hs.opened (Cursor.ends_of_mark (Cursor.mark?_before.mpr he) hclose))

theorem completes_index {o e : Token} (ih : Completes k i (.postfixed c t) ts) (hlt : k + c < maxNesting)
    (ho : o.content = .mark .leftBracket) (hjoins : o.joins i)
    (ihx : Completes (k + c + 1) true (.expression x) us) (he : e.content = .mark .rightBracket) :
    Completes k i (.postfixed (c + 1) (.index t x)) (ts ++ o :: (us ++ [e])) := by
  refine completes_form ih hlt ho hjoins fun s hs hs' hbracket => ?_
  have hinside := inside_expression ihx hlt hs.deeper he (by decide)
  exact (postfixForms_index hbracket hs').trans (bind_ok hinside)

/-- A bracketed list, which has room for all its items. -/
theorem list_ok {item : Parser α} {close : Mark} {e : Token} {s : Cursor} {as : List α}
    (hs : Stands k i (ts ++ [e]) s) (he : e.content = .mark close) (hcount : as.length ≤ ts.length)
    (h : ∀ s, Stands k true ts s → TakesList item ts s as) (hclose : close ∈ Cursor.closers)
    (hcomma : close ≠ .comma) : list item close (s.before (ts ++ [e])) = .ok as s := by
  have hat : (({ s with brackets := s.brackets + 1 } : Cursor).before [e]).isAt close = true := by
    rw [Cursor.isAt_before he]
    exact beq_self_eq_true close
  have hrounds : as.length < s.total + 1 := by
    have := hs.room
    rw [List.length_append] at this
    omega
  rw [list, get_bind]
  exact inside_ok he (h _ hs.opened close hclose hcomma hat _ hrounds)

theorem completes_call {o e : Token} {as : List Tree} (ih : Completes k i (.postfixed c t) ts)
    (hlt : k + c < maxNesting) (ho : o.content = .mark .leftParen) (hjoins : o.joins i)
    (has : Spells (k + c + 1) true (.items as) us) (ihas : Completes (k + c + 1) true (.items as) us)
    (he : e.content = .mark .rightParen) :
    Completes k i (.postfixed (c + 1) (.call t as)) (ts ++ o :: (us ++ [e])) := by
  refine completes_form ih hlt ho hjoins fun s hs hs' hparen => ?_
  have hlist := list_ok hs.deeper he has.count_le (ihas hlt) (by decide) (by decide)
  exact (postfixForms_call hparen hs').trans (bind_ok hlist)

theorem completes_atom {first : Token} (h : first.atom? = some t) :
    Completes k i (.primary t) [first] := by
  intro _ s _
  show primary (levelAt k).expression (s.before [first]) = _
  rw [primary, bind_ok next_before]
  unfold Token.atom? at h
  cases hfirst : first.content with
  | number | string | name =>
    rw [hfirst] at h
    cases h
    rfl
  | mark m =>
    rw [hfirst] at h
    cases h

theorem completes_paren {o e : Token} (ho : o.content = .mark .leftParen)
    (ih : Completes k true (.expression t) ts) (he : e.content = .mark .rightParen) :
    Completes k i (.primary t) (o :: (ts ++ [e])) := by
  intro hk s hs
  show primary (levelAt k).expression (s.before (o :: (ts ++ [e]))) = _
  rw [primary, bind_ok next_before, ho]
  exact inside_expression ih hk hs.tail he (by decide)

theorem completes_array {o e : Token} {as : List Tree} (ho : o.content = .mark .leftBracket)
    (has : Spells k true (.items as) ts) (ih : Completes k true (.items as) ts)
    (he : e.content = .mark .rightBracket) : Completes k i (.primary (.array as)) (o :: (ts ++ [e])) := by
  intro hk s hs
  have hlist := list_ok hs.tail he has.count_le (ih hk) (by decide) (by decide)
  show primary (levelAt k).expression (s.before (o :: (ts ++ [e]))) = _
  rw [primary, bind_ok next_before, ho]
  exact map_eq_ok.mpr ⟨as, hlist, rfl⟩

theorem completes_record {o e : Token} {fs : List (String × Tree)} (ho : o.content = .mark .leftBrace)
    (hfs : Spells k true (.fields fs) ts) (ih : Completes k true (.fields fs) ts)
    (he : e.content = .mark .rightBrace) : Completes k i (.primary (.record fs)) (o :: (ts ++ [e])) := by
  intro hk s hs
  have hlist := list_ok hs.tail he hfs.count_le (ih hk) (by decide) (by decide)
  show primary (levelAt k).expression (s.before (o :: (ts ++ [e]))) = _
  rw [primary, bind_ok next_before, ho]
  exact map_eq_ok.mpr ⟨fs, hlist, rfl⟩

/-- No phrase begins with a mark that only follows an expression. -/
theorem isAt_of_head {phrase : Phrase} (h : Spells k i phrase ts) (hphrase : phrase.isList = false)
    {close : Mark} (hclose : close ∈ Cursor.closers) (us : List Token) (s : Cursor) :
    (s.before (ts ++ us)).isAt close = false := by
  obtain ⟨first, rest, rfl, hfirst⟩ := h.head hphrase
  have hopeners : ∀ m ∈ phrase.openers, m ∉ Cursor.closers := by
    cases phrase <;> simp [Phrase.openers, Cursor.closers]
  rw [Bool.eq_false_iff]
  intro hat
  exact hopeners close (hfirst close (Cursor.mark?_before.mp (eq_of_beq hat))) hclose

theorem takesList_last {phrase : Phrase} {item : Parser α} {a : α} (h : Spells k i phrase ts)
    (hphrase : phrase.isList = false) {s : Cursor} (hitem : s.Ends → item (s.before ts) = .ok a s) :
    TakesList item ts s [a] := by
  intro close hclose _ hat rounds hr
  have hstart := isAt_of_head h hphrase hclose [] s
  rw [List.append_nil] at hstart
  exact items_last hstart (hitem (Cursor.ends_of_mark (eq_of_beq hat) hclose)) hat hr

theorem takesList_more {phrase : Phrase} {item : Parser α} {a : α} {as : List α} {m : Token}
    (h : Spells k i phrase ts) (hphrase : phrase.isList = false) (hm : m.content = .mark .comma) {s : Cursor}
    (hitem : (s.before (m :: us)).Ends → item ((s.before (m :: us)).before ts) = .ok a (s.before (m :: us)))
    (hrest : TakesList item us s as) : TakesList item (ts ++ m :: us) s (a :: as) := by
  intro close hclose hcomma hat rounds hr
  obtain ⟨rounds, rfl⟩ := Nat.exists_eq_succ_of_ne_zero (Nat.ne_zero_of_lt hr)
  have hitem := hitem (Cursor.ends_of_mark (Cursor.mark?_before.mpr hm) (by decide))
  rw [Cursor.before_before] at hitem
  exact items_more (isAt_of_head h hphrase hclose _ s) hitem hm hcomma
    (hrest close hclose hcomma hat rounds (Nat.lt_of_succ_lt_succ hr))

theorem completes_field {key : String} {first m : Token}
    (hkey : first.content = .name key ∨ first.content = .string key) (hm : m.content = .mark .colon)
    (ih : Completes k i (.expression t) ts) : Completes k i (.field (key, t)) (first :: m :: ts) := by
  intro hk s hs hends
  have hcolon : expect .colon (s.before (m :: ts)) = .ok () (s.before ts) :=
    expect_eq_ok.mpr ⟨m, hm, by simp⟩
  have hvalue := ih hk s hs.tail.tail hends
  rw [field, bind_ok next_before]
  rcases hkey with hkey | hkey <;> rw [hkey]
  · show (expect .colon >>= _) _ = _
    rw [bind_ok hcolon, bind_ok hvalue]
    rfl
  · show (expect .colon >>= _) _ = _
    rw [bind_ok hcolon, bind_ok hvalue]
    rfl

end Phrases

/-- **Completeness.** The parser of every phrase takes what spells it. -/
theorem complete {k : Nat} {i : Bool} {phrase : Phrase} {ts : List Token} (h : Spells k i phrase ts) :
    Completes k i phrase ts := by
  induction h with
  | expression hlt _ ih => exact completes_expression hlt ih
  | plain _ ih => exact completes_plain ih
  | conditional _ hq hjoins _ hc _ ihrun ihyes ihno =>
    exact completes_conditional ihrun hq hjoins ihyes hc ihno
  | operand _ ih => exact fun hk s hs hcloses => .of_operand (ih hk s hs hcloses.settled)
  | looser hlt _ ih => exact fun hk s hs hcloses => (ih hk s hs (hcloses.mono (Nat.le_succ _))).loosen hlt
  | apply _ hop hjoins _ hshort ihrun ihright => exact completes_apply ihrun hop hjoins ihright hshort
  | sign hm hlt _ ih => exact completes_sign hm hlt ih
  | bare hpostfixed ih => exact completes_bare hpostfixed ih
  | primary _ ih => exact completes_primary ih
  | member _ hlt hd hjoins hm ih => exact completes_member ih hlt hd hjoins hm
  | index _ hlt ho hjoins _ hc ih ihx => exact completes_index ih hlt ho hjoins ihx hc
  | call _ hlt ho hjoins has hc ih ihas => exact completes_call ih hlt ho hjoins has ihas hc
  | atom h => exact completes_atom h
  | paren ho _ hc ih => exact completes_paren ho ih hc
  | array ho has hc ih => exact completes_array ho has ih hc
  | record ho hfs hc ih => exact completes_record ho hfs ih hc
  | noItems | noFields => exact fun _ s _ close _ _ hat rounds hr => items_nil hat hr
  | lastItem h ih => exact fun hk s hs => takesList_last h rfl (ih hk s hs)
  | moreItems h hc _ ih ihas =>
    exact fun hk s hs => takesList_more h rfl hc (ih hk _ hs.before) (ihas hk s hs.after.tail)
  | field hkey hc _ ih => exact completes_field hkey hc ih
  | lastField h ih => exact fun hk s hs => takesList_last h rfl (ih hk s hs)
  | moreFields h hc _ ih ihfs =>
    exact fun hk s hs => takesList_more h rfl hc (ih hk _ hs.before) (ihfs hk s hs.after.tail)

/-! ### Scripts -/

theorem expression_complete {t : Tree} {ts : List Token} {s : Cursor} (h : Spells 0 false (.expression t) ts)
    (hs : Stands 0 false ts s) (hends : s.Ends) : expression (s.before ts) = .ok t s :=
  complete h (Nat.zero_le _) s hs hends

/-- A statement that no leading word begins is an expression. -/
theorem statement_yield {s : Cursor} (h : ∀ w, s.name? = some w → w ∉ leadingWords) :
    statement s = (Statement.yield <$> expression) s := by
  rw [statement, get_bind]
  cases hname : s.name? with
  | none => rfl
  | some w =>
    have hw := h w hname
    simp only [leadingWords, definers, List.mem_cons, List.not_mem_nil, or_false, not_or] at hw
    obtain ⟨hreturn, hlet, hconst, hvar⟩ := hw
    simp only [if_neg (show ¬ (w = "let" ∨ w = "const" ∨ w = "var") by simp [hlet, hconst, hvar]),
      if_neg hreturn]

theorem statement_complete {a : Statement} {ts : List Token} {s : Cursor} (h : Sentence a ts)
    (hs : Stands 0 false ts s) (hends : s.Ends) : statement (s.before ts) = .ok a s := by
  cases h with
  | @define w x t ts word name assign hword hdefiner hname hassign ht =>
    have hdefine : w = "let" ∨ w = "const" ∨ w = "var" := by simpa [definers] using hdefiner
    have hx : expectName (s.before (name :: assign :: ts)) = .ok x (s.before (assign :: ts)) :=
      expectName_eq_ok.mpr ⟨name, hname, rfl⟩
    have hassign : expect .assign (s.before (assign :: ts)) = .ok () (s.before ts) :=
      expect_eq_ok.mpr ⟨assign, hassign, rfl⟩
    rw [statement, get_bind, Cursor.name?_before.mpr hword]
    simp only [if_pos hdefine]
    rw [advance_bind, Cursor.advance_before, bind_ok hx, bind_ok hassign,
      bind_ok (expression_complete ht hs.tail.tail.tail hends)]
    rfl
  | @answer t ts word hword ht =>
    rw [statement, get_bind, Cursor.name?_before.mpr hword]
    show (advance >>= _) _ = _
    rw [advance_bind, Cursor.advance_before]
    exact map_eq_ok.mpr ⟨t, expression_complete ht hs.tail hends, rfl⟩
  | @yield t ts ht hfirst =>
    have hyield : (Statement.yield <$> expression) (s.before ts) = .ok (.yield t) s :=
      map_eq_ok.mpr ⟨t, expression_complete ht hs hends, rfl⟩
    rw [statement_yield fun w hw => ?_]
    · exact hyield
    · obtain ⟨first, rest, rfl, -⟩ := ht.head rfl
      exact hfirst first rfl w (Cursor.name?_before.mp hw)

theorem statements_complete {as : List Statement} {ts : List Token} (h : Script as ts) :
    ∀ {s : Cursor} (rounds : Nat), Outside s → s.rest = ts → ts.length ≤ s.total → ts.length < rounds →
      ∃ s', statements rounds s = .ok as s' := by
  induction h with
  | @done seps hseps =>
    intro s rounds _ hrest _ hr
    obtain ⟨rounds, rfl⟩ := Nat.exists_eq_succ_of_ne_zero (Nat.ne_zero_of_lt hr)
    have hdrop : s.rest.dropWhile isSeparator = [] := by
      rw [hrest, ← List.append_nil seps, List.dropWhile_append_of_pos hseps]
      rfl
    rw [statements, modify_bind, get_bind, if_pos (List.isEmpty_iff.mpr hdrop)]
    exact ⟨_, rfl⟩
  | @cons a as seps ts us hseps hsentence hparted _ ih =>
    intro s rounds ho hrest htotal hr
    obtain ⟨rounds, rfl⟩ := Nat.exists_eq_succ_of_ne_zero (Nat.ne_zero_of_lt hr)
    simp only [List.length_append] at htotal hr
    have hdrop : s.rest.dropWhile isSeparator = ts ++ us := by
      obtain ⟨first, rest, rfl, hfirst⟩ := hsentence.head
      rw [hrest, List.append_assoc, List.dropWhile_append_of_pos hseps, List.cons_append,
        List.dropWhile_cons_of_neg (by simp [hfirst])]
    have hpos : 0 < ts.length := by
      obtain ⟨first, rest, rfl, -⟩ := hsentence.head
      exact Nat.succ_pos _
    have hafter : Stands 0 false ts { s with rest := us } :=
      ⟨ho.nesting, ho.inside, by show ts.length + us.length ≤ s.total; omega⟩
    have hstatement := statement_complete hsentence hafter (Cursor.ends_of_parted ho.inside hparted)
    have hnonempty : (ts ++ us).isEmpty = false := by
      cases ts with
      | nil => cases hpos
      | cons => rfl
    obtain ⟨s', hrest'⟩ := ih (s := { s with rest := us }) rounds ⟨ho.nesting, ho.inside⟩ rfl
      (by show us.length ≤ s.total; omega) (by omega)
    refine ⟨s', ?_⟩
    rw [statements, modify_bind, get_bind, hdrop, if_neg (by simp [hnonempty])]
    show (statement >>= _) ({ s with rest := us }.before ts) = _
    rw [bind_ok hstatement, get_bind, if_neg (Cursor.parted_iff.mpr hparted)]
    show (statements rounds >>= _) _ = _
    rw [bind_ok hrest']
    rfl

theorem parse_of_script {as : List Statement} {ts : List Token} (h : Script as ts) (stop : Nat) :
    parse ts stop = .ok as := by
  obtain ⟨s', hstatements⟩ := statements_complete h (s := ⟨ts, 0, 0, ts.length, stop⟩) (ts.length + 1)
    ⟨rfl, rfl⟩ rfl (Nat.le_refl _) (Nat.lt_succ_self _)
  rw [parse, hstatements]

/-- **The parser accepts its grammar.** It answers with a list of statements exactly
when all the tokens, in their order, spell them. -/
theorem parse_eq_ok_iff (tokens : List Token) (stop : Nat) (as : List Statement) :
    parse tokens stop = .ok as ↔ Script as tokens := by
  constructor
  · exact script_of_parse
  · intro h
    exact parse_of_script h stop

end PoolScaling.Expr.Parser
