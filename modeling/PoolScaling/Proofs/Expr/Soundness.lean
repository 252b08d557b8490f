import PoolScaling.Proofs.Expr.Cursor

/-! What the parser accepts.

Whatever a parser answers is spelled by the tokens it has taken: `sound` says so of
the parsers of every depth, by induction on the depths that are left. Each loop
carries the phrase that has been read so far. -/
namespace PoolScaling.Expr.Parser

variable {α β : Type} {k : Nat}

/-- Every answer of `p` at nesting `k` is spelled by the tokens that `p` takes. -/
def Reads (k : Nat) (p : Parser α) (P : Bool → α → List Token → Prop) : Prop :=
  ∀ s a s', s.nesting = k → p s = .ok a s' → ∃ ts, s = s'.before ts ∧ P s.inside a ts

theorem nesting_eq_before {s u : Cursor} {n : Nat} {ts : List Token}
    (h : { s with nesting := n } = u.before ts) : s = { u with nesting := s.nesting }.before ts := by
  obtain ⟨rest, brackets, nesting, total, stop⟩ := s
  cases h
  rfl

theorem brackets_eq_before {s u : Cursor} {n : Nat} {ts : List Token}
    (h : { s with brackets := n } = u.before ts) : s = { u with brackets := s.brackets }.before ts := by
  obtain ⟨rest, brackets, nesting, total, stop⟩ := s
  cases h
  rfl

variable {p : Parser α} {P : Bool → α → List Token → Prop}

theorem Reads.nested (h : Reads (k + 1) p P) :
    Reads k (nested p) fun i a ts => k < maxNesting ∧ P i a ts := by
  intro s a s' hk hp
  cases hk
  obtain ⟨hlt, u, hu, rfl⟩ := nested_eq_ok.mp hp
  obtain ⟨ts, hs, hts⟩ := h _ _ _ rfl hu
  have hn : u.nesting - 1 = s.nesting := by
    have := congrArg Cursor.nesting hs
    simp only [Cursor.before_nesting] at this
    omega
  refine ⟨ts, ?_, hlt, hts⟩
  rw [hn]
  exact nesting_eq_before hs

theorem Reads.inside {close : Mark} (h : Reads k p P) :
    Reads k (inside close p) fun _ a ts =>
      ∃ (us : List Token) (c : Token), P true a us ∧ c.content = .mark close ∧ ts = us ++ [c] := by
  intro s a s' hk hp
  obtain ⟨c, u, hu, hc, rfl⟩ := inside_eq_ok.mp hp
  obtain ⟨us, hs, hus⟩ := h { s with brackets := s.brackets + 1 } a _ hk hu
  have hb : u.brackets - 1 = s.brackets := by
    have := congrArg Cursor.brackets hs
    simp only [Cursor.before_brackets] at this
    omega
  refine ⟨us ++ [c], ?_, us, c, ?_, hc, rfl⟩
  · rw [hb, ← Cursor.before_before]
    exact brackets_eq_before hs
  · have : ({ s with brackets := s.brackets + 1 } : Cursor).inside = true := by
      simp [Cursor.inside]
    rw [← this]
    exact hus

theorem items_isAt {close : Mark} {rounds : Nat} {s s' : Cursor} {as : List α}
    (hclose : s.isAt close = true) (h : items p close rounds s = .ok as s') : as = [] ∧ s' = s := by
  cases rounds with
  | zero => cases h
  | succ rounds =>
    rw [items, get_bind, if_pos hclose] at h
    cases h
    exact ⟨rfl, rfl⟩

/-- A list is spelled by its items, with commas after all but perhaps the last. -/
theorem Reads.items {close : Mark} {Q : Bool → List α → List Token → Prop} (h : Reads k p P)
    (hnil : ∀ i, Q i [] []) (hlast : ∀ {i a ts}, P i a ts → Q i [a] ts)
    (hcons : ∀ {i a as ts us} {c : Token}, P i a ts → c.content = .mark .comma → Q i as us →
      Q i (a :: as) (ts ++ c :: us)) (rounds : Nat) :
    Reads k (items p close rounds) Q := by
  induction rounds with
  | zero =>
    intro s as s' _ hp
    cases hp
  | succ rounds ih =>
    intro s as s' hk hp
    rw [Parser.items, get_bind] at hp
    split at hp
    · cases hp
      exact ⟨[], rfl, hnil _⟩
    · obtain ⟨a, u, hitem, hrest⟩ := bind_eq_ok.mp hp
      obtain ⟨ts, rfl, hts⟩ := h _ _ _ hk hitem
      rw [get_bind] at hrest
      by_cases hclose : u.isAt close = true
      · rw [if_pos hclose] at hrest
        obtain ⟨as, v, hitems, hpure⟩ := bind_eq_ok.mp hrest
        obtain ⟨rfl, rfl⟩ := items_isAt hclose hitems
        cases hpure
        exact ⟨ts, rfl, hlast hts⟩
      · rw [if_neg hclose] at hrest
        obtain ⟨⟨⟩, v, hcomma, hmore⟩ := bind_eq_ok.mp hrest
        obtain ⟨as, w, hitems, hpure⟩ := bind_eq_ok.mp hmore
        cases hpure
        obtain ⟨c, hc, rfl⟩ := expect_eq_ok.mp hcomma
        obtain ⟨us, rfl, hus⟩ := ih v as s' hk hitems
        refine ⟨ts ++ c :: us, ?_, hcons hts hc hus⟩
        simp

theorem Reads.list {close : Mark} {Q : Bool → List α → List Token → Prop} (h : Reads k p P)
    (hnil : ∀ i, Q i [] []) (hlast : ∀ {i a ts}, P i a ts → Q i [a] ts)
    (hcons : ∀ {i a as ts us} {c : Token}, P i a ts → c.content = .mark .comma → Q i as us →
      Q i (a :: as) (ts ++ c :: us)) :
    Reads k (list p close) fun _ as ts =>
      ∃ (us : List Token) (c : Token), Q true as us ∧ c.content = .mark close ∧ ts = us ++ [c] := by
  intro s as s' hk hp
  rw [Parser.list, get_bind] at hp
  exact (h.items hnil hlast hcons (s.total + 1)).inside s as s' hk hp

/-! ### Operations -/

/-- Every answer of `p` is an operation of level `least` that ends where it has to. -/
def ReadsOperation (k : Nat) (p : Parser Tree) (least : Nat) : Prop :=
  ∀ s t s', s.nesting = k → p s = .ok t s' →
    (∃ ts f r, s = s'.before ts ∧ t = .ofRun f r ∧ Spells k s.inside (.operation least f r) ts) ∧
    s'.Stops least

/-- The loop over operands extends the run `f`, `r` that has been read. -/
theorem operands_sound {right : Nat → Parser Tree} {least : Nat}
    (hright : ∀ l, least ≤ l → l < BinaryOp.levels → ReadsOperation k (right l) (l + 1)) (left : Nat) :
    ∀ {s s' f r rest ts l}, s.nesting = k → r.length + left < maxOperands → least ≤ l →
      l ≤ BinaryOp.levels → Spells k s.inside (.operation l f r) ts → s.Stops (l + 1) →
      operands right least left s = .ok rest s' →
      (∃ us, s = s'.before us ∧ Spells k s.inside (.operation least f (r ++ rest)) (ts ++ us)) ∧
      s'.Stops least := by
  induction left with
  | zero =>
    intro s s' f r rest ts l hk hlen hle hl hrun hstop h
    obtain ⟨hstops, rfl, rfl⟩ := operands_zero_eq_ok.mp h
    refine ⟨⟨[], rfl, ?_⟩, hstops⟩
    rw [List.append_nil, List.append_nil]
    exact hrun.loosen hl hle
  | succ left ih =>
    intro s s' f r rest ts l hk hlen hle hl hrun hstop h
    obtain ⟨hstops, rfl, rfl⟩ | ⟨op, t, u, rest, hop, hge, ht, hrest, rfl⟩ := operands_succ_eq_ok h
    · refine ⟨⟨[], rfl, ?_⟩, hstops⟩
      rw [List.append_nil, List.append_nil]
      exact hrun.loosen hl hle
    · -- The run so far was read up to level `l`, so `op` is no tighter and takes all of it.
      obtain ⟨o, ho, hjoins, hs⟩ := Cursor.exists_before_of_operator? hop
      obtain ⟨⟨us, f', r', hu, rfl, hus⟩, hstop'⟩ :=
        hright op.level hge (BinaryOp.level_lt_levels op) s.advance t u hk ht
      have hlevel : op.level ≤ l := Nat.le_of_lt_succ (hstop op hop)
      have hrun' := Spells.apply (hrun.loosen hl hlevel) ho hjoins hus (by omega)
      rw [hu, Cursor.before_before] at hs
      subst hs
      have hlen' : (r ++ [(op, Tree.ofRun f' r')]).length + left < maxOperands := by
        simp only [List.length_append, List.length_singleton]
        omega
      obtain ⟨⟨vs, rfl, hvs⟩, hstops⟩ :=
        ih (s := u) hk hlen' hge (Nat.le_of_lt op.level_lt_levels) hrun' hstop' hrest
      refine ⟨⟨o :: us ++ vs, ?_, ?_⟩, hstops⟩
      · simp
      · simpa using hvs

/-- An operation of a level is read as long as there are levels left for tighter ones. -/
theorem binary_sound {operand : Parser Tree}
    (hoperand : Reads k operand fun i t ts => Spells k i (.unary t) ts) (levels : Nat) :
    ∀ least, least ≤ BinaryOp.levels → BinaryOp.levels ≤ levels + least →
      ReadsOperation k (binary operand levels least) least := by
  induction levels with
  | zero =>
    intro least hle hge s t s' hk h
    obtain rfl : least = BinaryOp.levels := by omega
    obtain ⟨ts, rfl, hts⟩ := hoperand s t s' hk h
    exact ⟨⟨ts, t, [], rfl, rfl, .operand hts⟩, fun op _ => op.level_lt_levels⟩
  | succ levels ih =>
    intro least hle hge s t s' hk h
    obtain ⟨first, u, hfirst, hmore⟩ := bind_eq_ok.mp h
    obtain ⟨rest, v, hrest, hpure⟩ := bind_eq_ok.mp hmore
    cases hpure
    obtain ⟨ts, rfl, hts⟩ := hoperand s first u hk hfirst
    have hright : ∀ l, least ≤ l → l < BinaryOp.levels →
        ReadsOperation k (binary operand levels (l + 1)) (l + 1) := fun l hl hlt =>
      ih (l + 1) hlt (by omega)
    obtain ⟨⟨us, rfl, hus⟩, hstops⟩ := operands_sound hright (maxOperands - 1) (s := u) hk (by decide) hle
      (Nat.le_refl _) (.operand hts) (fun op _ => Nat.lt_succ_of_lt op.level_lt_levels) hrest
    refine ⟨⟨ts ++ us, first, rest, ?_, rfl, hus⟩, hstops⟩
    simp

/-! ### Forms -/

section Forms

variable {expression operand : Parser Tree}

theorem conditional_sound (hexpression : Reads k expression fun i t ts => Spells k i (.expression t) ts)
    (hoperand : Reads k operand fun i t ts => Spells k i (.unary t) ts) :
    Reads k (conditional expression operand) fun i t ts => Spells k i (.body t) ts := by
  intro s t s' hk h
  obtain ⟨condition, u, hcondition, hmore⟩ := bind_eq_ok.mp h
  obtain ⟨⟨ts, f, r, rfl, rfl, hts⟩, -⟩ :=
    binary_sound hoperand BinaryOp.levels 0 (by decide) (by decide) s _ u hk hcondition
  rw [get_bind] at hmore
  split at hmore
  · rename_i hquestion
    obtain ⟨q, hq, hjoins, hu⟩ := Cursor.exists_before_of_continuation? (Cursor.continues_iff.mp hquestion)
    rw [advance_bind] at hmore
    obtain ⟨yes, v, hyes, hcolon⟩ := bind_eq_ok.mp hmore
    obtain ⟨⟨⟩, w, hexpect, hbranch⟩ := bind_eq_ok.mp hcolon
    obtain ⟨no, x, hno, hpure⟩ := bind_eq_ok.mp hbranch
    cases hpure
    obtain ⟨us, hv, hus⟩ := hexpression u.advance yes v hk hyes
    obtain ⟨c, hc, rfl⟩ := expect_eq_ok.mp hexpect
    rw [hv] at hu
    subst hu
    obtain ⟨vs, rfl, hvs⟩ := hexpression w no _ hk hno
    refine ⟨ts ++ q :: (us ++ c :: vs), ?_, .conditional hts hq hjoins hus hc hvs⟩
    simp
  · cases hmore
    exact ⟨ts, rfl, .plain hts⟩

theorem field_sound (hexpression : Reads k expression fun i t ts => Spells k i (.expression t) ts) :
    Reads k (field expression) fun i f ts => Spells k i (.field f) ts := by
  intro s f s' hk h
  obtain ⟨token, u, hnext, hmore⟩ := bind_eq_ok.mp h
  obtain rfl := next_eq_ok.mp hnext
  have hkey : ∃ key, (token.content = .name key ∨ token.content = .string key) ∧
      (do expect .colon; let value ← expression; pure (key, value) : Parser (String × Tree)) u = .ok f s' := by
    obtain ⟨content, position, newline⟩ := token
    cases content with
    | name key => exact ⟨key, .inl rfl, hmore⟩
    | string key => exact ⟨key, .inr rfl, hmore⟩
    | number | mark => cases hmore
  obtain ⟨key, htoken, hmore⟩ := hkey
  obtain ⟨⟨⟩, v, hexpect, hvalue⟩ := bind_eq_ok.mp hmore
  obtain ⟨value, w, hvalue, hpure⟩ := bind_eq_ok.mp hvalue
  cases hpure
  obtain ⟨c, hc, rfl⟩ := expect_eq_ok.mp hexpect
  obtain ⟨ts, rfl, hts⟩ := hexpression v value _ hk hvalue
  exact ⟨token :: c :: ts, by simp, .field htoken hc hts⟩

theorem items_sound {close : Mark}
    (hexpression : Reads k expression fun i t ts => Spells k i (.expression t) ts) :
    Reads k (list expression close) fun _ as ts =>
      ∃ (us : List Token) (c : Token),
        Spells k true (.items as) us ∧ c.content = .mark close ∧ ts = us ++ [c] :=
  hexpression.list (Q := fun i as ts => Spells k i (.items as) ts) (fun _ => .noItems) .lastItem .moreItems

theorem fields_sound {close : Mark}
    (hexpression : Reads k expression fun i t ts => Spells k i (.expression t) ts) :
    Reads k (list (field expression) close) fun _ fs ts =>
      ∃ (us : List Token) (c : Token),
        Spells k true (.fields fs) us ∧ c.content = .mark close ∧ ts = us ++ [c] :=
  (field_sound hexpression).list (Q := fun i fs ts => Spells k i (.fields fs) ts) (fun _ => .noFields)
    .lastField .moreFields

theorem primary_sound (hexpression : Reads k expression fun i t ts => Spells k i (.expression t) ts) :
    Reads k (primary expression) fun i t ts => Spells k i (.primary t) ts := by
  intro s t s' hk h
  obtain ⟨token, u, hnext, hmore⟩ := bind_eq_ok.mp h
  obtain rfl := next_eq_ok.mp hnext
  cases htoken : token.content with
  | number | string | name =>
    rw [htoken] at hmore
    cases hmore
    exact ⟨[token], rfl, .atom (by rw [Token.atom?, htoken])⟩
  | mark m =>
    rw [htoken] at hmore
    cases m with
    | leftParen =>
      obtain ⟨ts, rfl, us, c, hus, hc, rfl⟩ := hexpression.inside u t s' hk hmore
      exact ⟨token :: (us ++ [c]), by simp, .paren htoken hus hc⟩
    | leftBracket =>
      obtain ⟨as, hlist, rfl⟩ := map_eq_ok.mp hmore
      obtain ⟨ts, rfl, us, c, hus, hc, rfl⟩ := items_sound hexpression u as s' hk hlist
      exact ⟨token :: (us ++ [c]), by simp, .array htoken hus hc⟩
    | leftBrace =>
      obtain ⟨fs, hlist, rfl⟩ := map_eq_ok.mp hmore
      obtain ⟨ts, rfl, us, c, hus, hc, rfl⟩ := fields_sound hexpression u fs s' hk hlist
      exact ⟨token :: (us ++ [c]), by simp, .record htoken hus hc⟩
    | _ => cases hmore

end Forms

/-! ### Depths -/

/-- Every answer of the parsers at nesting `k` is spelled by the tokens they take. Postfix
forms extend what they are given, and stay as deep as they have gone. -/
structure Sound (k : Nat) (inner : Level) : Prop where
  expression : Reads k inner.expression fun i t ts => Spells k i (.expression t) ts
  body : Reads k inner.body fun i t ts => Spells k i (.body t) ts
  unary : Reads k inner.unary fun i t ts => Spells k i (.unary t) ts
  postfixes : ∀ {n c t ts s t' s'}, n + c = k → s.nesting = k → Spells n s.inside (.postfixed c t) ts →
    inner.postfixes t s = .ok t' s' →
    ∃ us c', s = { s' with nesting := k }.before us ∧ Spells n s.inside (.postfixed c' t') (ts ++ us)

theorem sound_beyond (k : Nat) : Sound k .beyond where
  expression := by intro s t s' _ h; cases h
  body := by intro s t s' _ h; cases h
  unary := by intro s t s' _ h; cases h
  postfixes := by intro n c t ts s t' s' _ _ _ h; cases h

/-- After one more form, the parser of the next depth reads the others. -/
theorem Sound.more {inner : Level} (h : Sound (k + 1) inner) {n c : Nat} {t t' : Tree} {d : Token}
    {ts us : List Token} {s s' v : Cursor} (hn : n + c = k) (hk : s.nesting = k)
    (hs : s = s.advance.before [d]) (hv : { s with nesting := s.nesting + 1 }.advance = v.before us)
    (ht : Spells n s.inside (.postfixed (c + 1) t) (ts ++ d :: us)) (hforms : inner.postfixes t v = .ok t' s') :
    ∃ us c', s = { s' with nesting := k }.before us ∧ Spells n s.inside (.postfixed c' t') (ts ++ us) := by
  have hvk : v.nesting = k + 1 := by
    have := congrArg Cursor.nesting hv
    rw [← hk]
    exact this.symm
  have hvi : v.inside = s.inside := (congrArg Cursor.inside hv).symm
  rw [← hvi] at ht
  obtain ⟨ws, c', hw, hws⟩ := h.postfixes (n := n) (by omega) hvk ht hforms
  refine ⟨d :: us ++ ws, c', ?_, ?_⟩
  · have hadvance : s.advance = { v with nesting := s.nesting }.before us := nesting_eq_before hv
    rw [hs, hadvance, hw, hk]
    simp [Cursor.before]
  · rw [hvi] at hws
    simpa using hws

/-- What begins a postfix form. -/
theorem entered {form : Parser α} {m : Mark} {a : α} {s s' : Cursor} (hm : s.continues m = true)
    (h : (do enter; advance; form : Parser α) s = .ok a s') :
    ∃ d, d.content = .mark m ∧ d.joins s.inside ∧ s = s.advance.before [d] ∧ s.nesting < maxNesting ∧
      form { s with nesting := s.nesting + 1 }.advance = .ok a s' := by
  obtain ⟨d, hd, hjoins, hs⟩ := Cursor.exists_before_of_continuation? (Cursor.continues_iff.mp hm)
  obtain ⟨⟨⟩, u, henter, hform⟩ := bind_eq_ok.mp h
  obtain ⟨hlt, rfl⟩ := enter_eq_ok.mp henter
  rw [advance_bind] at hform
  exact ⟨d, hd, hjoins, hs, hlt, hform⟩

theorem postfixForms_sound {inner : Level} (h : Sound (k + 1) inner) {n c : Nat} {t t' : Tree}
    {ts : List Token} {s s' : Cursor} (hn : n + c = k) (hk : s.nesting = k)
    (ht : Spells n s.inside (.postfixed c t) ts) (hforms : postfixForms inner t s = .ok t' s') :
    ∃ us c', s = { s' with nesting := k }.before us ∧ Spells n s.inside (.postfixed c' t') (ts ++ us) := by
  unfold postfixForms at hforms
  rw [get_bind] at hforms
  split at hforms
  · rename_i hdot
    obtain ⟨d, hd, hjoins, hs, hlt, hmore⟩ := entered hdot hforms
    obtain ⟨f, v, hname, hrest⟩ := bind_eq_ok.mp hmore
    obtain ⟨m, hm, hv⟩ := expectName_eq_ok.mp hname
    exact h.more hn hk hs hv (.member ht (by omega) hd hjoins hm) hrest
  · split at hforms
    · rename_i hbracket
      obtain ⟨d, hd, hjoins, hs, hlt, hmore⟩ := entered hbracket hforms
      obtain ⟨x, v, hindex, hrest⟩ := bind_eq_ok.mp hmore
      obtain ⟨_, hv, us, e, hus, he, rfl⟩ := h.expression.inside _ x v (congrArg (· + 1) hk) hindex
      exact h.more hn hk hs hv (.index ht (by omega) hd hjoins (hn ▸ hk ▸ hus) he) hrest
    · split at hforms
      · rename_i hparen
        obtain ⟨d, hd, hjoins, hs, hlt, hmore⟩ := entered hparen hforms
        obtain ⟨as, v, hlist, hrest⟩ := bind_eq_ok.mp hmore
        obtain ⟨_, hv, us, e, hus, he, rfl⟩ := items_sound h.expression _ as v (congrArg (· + 1) hk) hlist
        exact h.more hn hk hs hv (.call ht (by omega) hd hjoins (hn ▸ hk ▸ hus) he) hrest
      · cases hforms
        refine ⟨[], c, ?_, by rwa [List.append_nil]⟩
        rw [← hk]
        rfl

theorem Sound.deeper {inner : Level} (h : Sound (k + 1) inner) :
    Reads k (nested inner.body) fun i t ts => Spells k i (.expression t) ts := by
  intro s t s' hk hp
  obtain ⟨ts, hs, hlt, hts⟩ := h.body.nested s t s' hk hp
  exact ⟨ts, hs, .expression hlt hts⟩

theorem sign_sound {inner : Level} (h : Sound (k + 1) inner) (op : UnaryOp) {s s' : Cursor} {t : Tree}
    (hk : s.nesting = k) (hmark : s.mark? = some op.mark)
    (hsign : (do let t ← nested inner.unary; pure (.unary op t) : Parser Tree) s.advance = .ok t s') :
    ∃ ts, s = s'.before ts ∧ Spells k s.inside (.unary t) ts := by
  obtain ⟨m, hm, hs⟩ := Cursor.exists_before_of_mark? hmark
  obtain ⟨t, u, hdeeper, hpure⟩ := bind_eq_ok.mp hsign
  cases hpure
  obtain ⟨ts, hts, hlt, hspells⟩ := h.unary.nested s.advance t _ hk hdeeper
  rw [hts] at hs
  exact ⟨m :: ts, by simpa using hs, .sign hm hlt hspells⟩

theorem unaryForms_sound {inner : Level} (h : Sound (k + 1) inner) :
    Reads k (unaryForms (nested inner.body) (nested inner.unary) (postfixForms inner))
      fun i t ts => Spells k i (.unary t) ts := by
  intro s t s' hk hforms
  unfold unaryForms at hforms
  rw [get_bind] at hforms
  split at hforms
  · rename_i hminus
    exact sign_sound h .negate hk (eq_of_beq hminus) hforms
  · split at hforms
    · rename_i hbang
      exact sign_sound h .not hk (eq_of_beq hbang) hforms
    · obtain ⟨u, hbare, rfl⟩ := keepingNesting_eq_ok.mp hforms
      obtain ⟨t₀, v, hprimary, hpostfixes⟩ := bind_eq_ok.mp hbare
      obtain ⟨ts, rfl, hts⟩ := primary_sound h.deeper s t₀ v hk hprimary
      obtain ⟨us, c, hv, hus⟩ :=
        postfixForms_sound h (s := v) (Nat.add_zero k) hk (.primary hts) hpostfixes
      refine ⟨ts ++ us, ?_, .bare hus⟩
      rw [hv, Cursor.before_before, ← hk]
      rfl

/-- The parsers of a depth answer rightly when those of the next one do. -/
theorem sound_around {inner : Level} (h : Sound (k + 1) inner) : Sound k inner.around :=
  ⟨h.deeper, conditional_sound h.deeper (unaryForms_sound h), unaryForms_sound h, postfixForms_sound h⟩

/-- At every depth and with any number of levels left, answers are spelled by what was taken. -/
theorem sound (n : Nat) : ∀ k, Sound k (level n) := by
  induction n with
  | zero => exact sound_beyond
  | succ n ih => exact fun k => sound_around (ih (k + 1))

/-! ### Scripts -/

theorem expression_sound : Reads 0 expression fun i t ts => Spells 0 i (.expression t) ts :=
  (sound (maxNesting + 1) 0).expression

/-- A cursor outside all forms and brackets. -/
structure Outside (s : Cursor) : Prop where
  nesting : s.nesting = 0
  inside : s.inside = false

theorem yield_sound {s s' : Cursor} {a : Statement} (ho : Outside s)
    (hword : ∀ w, s.name? = some w → w ∉ leadingWords) (h : (Statement.yield <$> expression) s = .ok a s') :
    ∃ ts, s = s'.before ts ∧ Sentence a ts := by
  obtain ⟨t, hexpression, rfl⟩ := map_eq_ok.mp h
  obtain ⟨ts, rfl, hts⟩ := expression_sound s t s' ho.nesting hexpression
  rw [ho.inside] at hts
  refine ⟨ts, rfl, .yield hts ?_⟩
  intro first hfirst w hw
  cases ts with
  | nil => cases hfirst
  | cons first' ts =>
    cases hfirst
    exact hword w (Cursor.name?_before.mpr hw)

theorem statement_sound {s s' : Cursor} {a : Statement} (ho : Outside s) (h : statement s = .ok a s') :
    ∃ ts, s = s'.before ts ∧ Sentence a ts := by
  unfold statement at h
  rw [get_bind] at h
  cases hname : s.name? with
  | none =>
    rw [hname] at h
    exact yield_sound ho (fun w hw => by rw [hname] at hw; cases hw) h
  | some word =>
    rw [hname] at h
    obtain ⟨first, hfirst, hs⟩ := Cursor.exists_before_of_name? hname
    by_cases hdefine : word = "let" ∨ word = "const" ∨ word = "var"
    · simp only [if_pos hdefine] at h
      rw [advance_bind] at h
      obtain ⟨x, u, hx, hassign⟩ := bind_eq_ok.mp h
      obtain ⟨⟨⟩, v, hexpect, hvalue⟩ := bind_eq_ok.mp hassign
      obtain ⟨value, w, hexpression, hpure⟩ := bind_eq_ok.mp hvalue
      cases hpure
      obtain ⟨name, hname', hu⟩ := expectName_eq_ok.mp hx
      obtain ⟨assign, hassign', rfl⟩ := expect_eq_ok.mp hexpect
      rw [hu] at hs
      subst hs
      obtain ⟨ts, rfl, hts⟩ := expression_sound v value s' ho.nesting hexpression
      have hvi : (s'.before ts).inside = false := ho.inside
      rw [hvi] at hts
      exact ⟨first :: name :: assign :: ts, by simp,
        .define hfirst (by simpa [definers] using hdefine) hname' hassign' hts⟩
    · simp only [if_neg hdefine] at h
      by_cases hreturn : word = "return"
      · rw [if_pos hreturn, advance_bind] at h
        obtain ⟨value, hexpression, rfl⟩ := map_eq_ok.mp h
        obtain ⟨ts, hu, hts⟩ := expression_sound s.advance value s' ho.nesting hexpression
        have hsi : s.advance.inside = false := ho.inside
        rw [hsi] at hts
        rw [hu] at hs
        exact ⟨first :: ts, by simpa using hs, .answer (hreturn ▸ hfirst) hts⟩
      · rw [if_neg hreturn] at h
        refine yield_sound ho (fun w hw => ?_) h
        rw [hname] at hw
        cases hw
        simpa [leadingWords, definers] using And.intro hreturn hdefine

/-- Scripts are read to their end. -/
theorem statements_sound (rounds : Nat) :
    ∀ {s s' : Cursor} {as : List Statement}, Outside s → s.rest.length < rounds →
      statements rounds s = .ok as s' → Script as s.rest := by
  induction rounds with
  | zero =>
    intro s s' as _ hlt
    omega
  | succ rounds ih =>
    intro s s' as ho hlt h
    have hseps : ∀ t ∈ s.rest.takeWhile isSeparator, isSeparator t = true :=
      List.all_eq_true.mp List.all_takeWhile
    have hsplit := List.takeWhile_append_dropWhile (p := isSeparator) (l := s.rest)
    rw [statements, modify_bind, get_bind] at h
    split at h
    · rename_i hempty
      cases h
      have hempty : s.rest.dropWhile isSeparator = [] := List.isEmpty_iff.mp hempty
      rw [hempty, List.append_nil] at hsplit
      rw [← hsplit]
      exact .done hseps
    · obtain ⟨first, u, hfirst, hmore⟩ := bind_eq_ok.mp h
      obtain ⟨ts, hu, hts⟩ :=
        statement_sound (s := { s with rest := s.rest.dropWhile isSeparator }) ⟨ho.nesting, ho.inside⟩ hfirst
      have hrest : s.rest.dropWhile isSeparator = ts ++ u.rest := congrArg Cursor.rest hu
      have hu' : Outside u :=
        ⟨(congrArg Cursor.nesting hu).symm.trans ho.nesting, (congrArg Cursor.inside hu).symm.trans ho.inside⟩
      rw [get_bind] at hmore
      split at hmore
      · cases hmore
      · rename_i hparted
        obtain ⟨rest, v, hstatements, hpure⟩ := bind_eq_ok.mp hmore
        cases hpure
        obtain ⟨t, us, rfl, -⟩ := hts.head
        have hlen : u.rest.length < rounds := by
          have := congrArg List.length hsplit
          rw [hrest] at this
          simp only [List.length_append, List.length_cons] at this
          omega
        rw [← hsplit, hrest, ← List.append_assoc]
        exact .cons hseps hts (Cursor.parted_iff.mp hparted) (ih hu' hlen hstatements)

/-- **Soundness.** What the parser answers is spelled by the tokens. -/
theorem script_of_parse {tokens : List Token} {stop : Nat} {as : List Statement}
    (h : parse tokens stop = .ok as) : Script as tokens := by
  unfold parse at h
  split at h
  · rename_i hstatements
    cases h
    exact statements_sound (tokens.length + 1) ⟨rfl, rfl⟩ (Nat.lt_succ_self _) hstatements
  · cases h

end PoolScaling.Expr.Parser
