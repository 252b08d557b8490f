import PoolScaling.Proofs.Expr.Single

/-! Fields and calls in a source.

A name that is looked up and a name in quotes are expressions by themselves, and so are a
field of an expression and a call of it with others. Put together on one line they are
still the same expressions, as no name runs into the next (`Writes`), and a script of one
of them compiles to its tree, whatever the names are (`Writes.compile`). -/
namespace PoolScaling.Expr

variable {source source' x f : String} {contents contents' : List Content} {k k' n n' : Nat} {t : Tree}
  {ts : List Tree} {text : List Char}

/-- Whether a text may follow a name without making it longer. -/
def Stops (text : List Char) : Prop := ∀ c ∈ text.head?, isNameChar c = false

theorem stops_nil : Stops [] := nofun

theorem stops_cons {c : Char} (h : isNameChar c = false) : Stops (c :: text) := by
  rintro c ⟨⟩
  exact h

/-- Whether a text on one line spells a tree by itself, from these tokens. Its first part is
followed by `k` fields and calls, and `n` is enough for its levels and the depth of its forms. -/
structure Writes (source : String) (contents : List Content) (k n : Nat) (t : Tree) : Prop where
  lexes : ∀ {text rest}, Stops text → Lexes text rest → Lexes (source.toList ++ text) (contents ++ rest)
  spells : ∀ {d i ts}, d + n ≤ maxNesting → ts.map Token.content = contents →
    (∀ t ∈ ts, t.newlineBefore = false) → Spells d i (.postfixed k t) ts
  first : ∃ c rest, contents = c :: rest ∧ ∀ w, c = .name w → w ∉ leadingWords
  count_lt : k < n
  height_le : t.height ≤ n

/-- Whether a text on one line spells the arguments of a call. -/
structure WritesItems (source : String) (contents : List Content) (n : Nat) (ts : List Tree) : Prop where
  lexes : ∀ {text rest}, Stops text → Lexes text rest → Lexes (source.toList ++ text) (contents ++ rest)
  spells : ∀ {d us}, d + n ≤ maxNesting → us.map Token.content = contents →
    (∀ t ∈ us, t.newlineBefore = false) → Spells d true (.items ts) us
  height_le : ∀ t ∈ ts, t.height ≤ n

/-! ### Marks between expressions -/

theorem Lexes.comma (h : Lexes text contents) : Lexes (',' :: ' ' :: text) (.mark .comma :: contents) :=
  .mark (by decide) (by decide) rfl (rfl : Mark.leading? (',' :: ' ' :: text) = some ([','], .comma)) h.space

theorem Lexes.open (h : Lexes text contents) : Lexes ('(' :: text) (.mark .leftParen :: contents) :=
  .mark (by decide) (by decide) rfl (rfl : Mark.leading? ('(' :: text) = some (['('], .leftParen)) h

theorem Lexes.close (h : Lexes text contents) : Lexes (')' :: text) (.mark .rightParen :: contents) :=
  .mark (by decide) (by decide) rfl (rfl : Mark.leading? (')' :: text) = some ([')'], .rightParen)) h

/-! ### Expressions -/

namespace Writes

theorem name (hx : IsReference x) : Writes x [.name x] 0 1 (.name x) where
  lexes hstops h := .name hx.isName hstops h
  spells := by
    rintro d i ts - hcontents -
    obtain ⟨t, ts, rfl, ht, hcontents⟩ := List.map_eq_cons_iff.mp hcontents
    obtain rfl := List.map_eq_nil_iff.mp hcontents
    exact .primary (.atom (by rw [Token.atom?, ht, ← hx.ofName]))
  first := ⟨_, [], rfl, by rintro w ⟨⟩; exact hx.not_leading⟩
  count_lt := by decide
  height_le := Tree.height_le_succ nofun

theorem quoted (hx : isName x = true) : Writes ("'" ++ x ++ "'") [.string x] 0 1 (.string x) where
  lexes {text _} _ h := by
    have htext : ("'" ++ x ++ "'").toList ++ text = '\'' :: (x.toList ++ '\'' :: text) := by
      simp [String.toList_append]
    rw [htext]
    exact .quoted hx h
  spells := by
    rintro d i ts - hcontents -
    obtain ⟨t, ts, rfl, ht, hcontents⟩ := List.map_eq_cons_iff.mp hcontents
    obtain rfl := List.map_eq_nil_iff.mp hcontents
    exact .primary (.atom (by rw [Token.atom?, ht]))
  first := ⟨_, [], rfl, nofun⟩
  count_lt := by decide
  height_le := Tree.height_le_succ nofun

theorem member (h : Writes source contents k n t) (hf : isName f = true) :
    Writes (source ++ "." ++ f) (contents ++ [.mark .dot, .name f]) (k + 1) (n + 1) (.member t f) where
  lexes {text rest} hstops hrest := by
    have htext : (source ++ "." ++ f).toList ++ text = source.toList ++ '.' :: (f.toList ++ text) := by
      simp [String.toList_append]
    have hall := h.lexes (stops_cons (by decide)) (Lexes.field hf hstops hrest)
    rwa [htext, List.append_assoc]
  spells := by
    intro d i ts hdepth hcontents hline
    have hcount := h.count_lt
    obtain ⟨us, ts, rfl, htarget, hcontents⟩ := List.map_eq_append_iff.mp hcontents
    obtain ⟨p, ts, rfl, hp, hcontents⟩ := List.map_eq_cons_iff.mp hcontents
    obtain ⟨m, ts, rfl, hm, hcontents⟩ := List.map_eq_cons_iff.mp hcontents
    obtain rfl := List.map_eq_nil_iff.mp hcontents
    have hspells := h.spells (d := d) (i := i) (by omega) htarget fun t ht => hline t (List.mem_append_left _ ht)
    exact hspells.member (by omega) hp (.inr (hline p (by simp))) hm
  first := by
    obtain ⟨c, rest, rfl, hc⟩ := h.first
    exact ⟨c, _, rfl, hc⟩
  count_lt := Nat.succ_lt_succ h.count_lt
  height_le := Tree.height_le_succ (List.forall_mem_singleton.mpr h.height_le)

/-- An expression as an argument. -/
theorem expression (h : Writes source contents k n t) {d : Nat} {i : Bool} {ts : List Token}
    (hdepth : d + (n + 1) ≤ maxNesting) (hcontents : ts.map Token.content = contents)
    (hline : ∀ t ∈ ts, t.newlineBefore = false) : Spells d i (.expression t) ts := by
  have hoperand := Spells.operand (.bare (h.spells (d := d + 1) (i := i) (by omega) hcontents hline))
  exact .expression (by omega) (.plain (hoperand.loosen (Nat.le_refl _) (Nat.zero_le _)))

theorem last (h : Writes source contents k n t) : WritesItems source contents (n + 1) [t] where
  lexes := h.lexes
  spells hdepth hcontents hline := .lastItem (h.expression hdepth hcontents hline)
  height_le := List.forall_mem_singleton.mpr (h.height_le.trans (Nat.le_succ n))

theorem cons (h : Writes source contents k n t) (hrest : WritesItems source' contents' n' ts) :
    WritesItems (source ++ ", " ++ source') (contents ++ .mark .comma :: contents') (n + 1 + n') (t :: ts) where
  lexes {text rest} hstops htext := by
    have hsource : (source ++ ", " ++ source').toList ++ text =
        source.toList ++ ',' :: ' ' :: (source'.toList ++ text) := by
      simp [String.toList_append]
    have hall := h.lexes (stops_cons (by decide)) (hrest.lexes hstops htext).comma
    rwa [hsource, List.append_assoc]
  spells := by
    intro d us hdepth hcontents hline
    obtain ⟨vs, us, rfl, hitem, hcontents⟩ := List.map_eq_append_iff.mp hcontents
    obtain ⟨c, us, rfl, hc, hitems⟩ := List.map_eq_cons_iff.mp hcontents
    refine .moreItems (h.expression (by omega) hitem fun t ht => ?_) hc (hrest.spells (by omega) hitems fun t ht => ?_)
    · exact hline t (List.mem_append_left _ ht)
    · exact hline t (List.mem_append_right _ (List.mem_cons_of_mem _ ht))
  height_le := by
    refine List.forall_mem_cons.mpr ⟨?_, fun t ht => ?_⟩
    · have hheight := h.height_le
      omega
    · have hheight := hrest.height_le t ht
      omega

theorem call (h : Writes source contents k n t) (harguments : WritesItems source' contents' n' ts) :
    Writes (source ++ "(" ++ source' ++ ")") (contents ++ .mark .leftParen :: (contents' ++ [.mark .rightParen]))
      (k + 1) (n + n' + 1) (.call t ts) where
  lexes {text rest} _ htext := by
    have hsource : (source ++ "(" ++ source' ++ ")").toList ++ text =
        source.toList ++ '(' :: (source'.toList ++ ')' :: text) := by
      simp [String.toList_append]
    have hall := h.lexes (stops_cons (by decide)) (harguments.lexes (stops_cons (by decide)) htext.close).open
    rw [hsource]
    simpa using hall
  spells := by
    intro d i us hdepth hcontents hline
    have hcount := h.count_lt
    obtain ⟨vs, us, rfl, hcallee, hcontents⟩ := List.map_eq_append_iff.mp hcontents
    obtain ⟨o, us, rfl, ho, hcontents⟩ := List.map_eq_cons_iff.mp hcontents
    obtain ⟨us, ws, rfl, hitems, hcontents⟩ := List.map_eq_append_iff.mp hcontents
    obtain ⟨c, ws, rfl, hc, hcontents⟩ := List.map_eq_cons_iff.mp hcontents
    obtain rfl := List.map_eq_nil_iff.mp hcontents
    have hspells := h.spells (d := d) (i := i) (by omega) hcallee fun t ht => hline t (List.mem_append_left _ ht)
    have hspellsItems := harguments.spells (d := d + k + 1) (by omega) hitems fun t ht => hline t (by simp [ht])
    exact hspells.call (by omega) ho (.inr (hline o (by simp))) hspellsItems hc
  first := by
    obtain ⟨c, rest, rfl, hc⟩ := h.first
    exact ⟨c, _, rfl, hc⟩
  count_lt := by
    have hcount := h.count_lt
    omega
  height_le := by
    refine Tree.height_le_succ (List.forall_mem_cons.mpr ⟨?_, fun t ht => ?_⟩)
    · have hheight := h.height_le
      omega
    · have hheight := harguments.height_le t ht
      omega

/-- **Fields and calls.** A script of one of them compiles to its tree. -/
theorem compile (h : Writes source contents k n t) (hn : n < maxNesting) :
    compile source = .ok t.program := by
  have hlexes : Lexes (source.toList ++ []) (contents ++ []) := h.lexes stops_nil lexes_nil
  rw [List.append_nil, List.append_nil] at hlexes
  refine compile_expression hlexes (fun ts hcontents hline => ?_) ?_ ?_
  · have hoperand := Spells.operand (.bare (h.spells (d := 1) (i := false) (by omega) hcontents hline))
    exact .plain (hoperand.loosen (Nat.le_refl _) (Nat.zero_le _))
  · obtain ⟨c, rest, rfl, hc⟩ := h.first
    rintro w ⟨⟩
    exact hc w rfl
  · have hheights : maxNesting ≤ maxHeight := by decide
    exact h.height_le.trans ((Nat.le_of_lt hn).trans hheights)

end Writes

/-- A field of a name, as a script. -/
theorem compile_member (hx : IsReference x) (hf : isName f = true) :
    compile (x ++ "." ++ f) = .ok (Tree.member (.name x) f).program :=
  ((Writes.name hx).member hf).compile (by decide)

end PoolScaling.Expr
