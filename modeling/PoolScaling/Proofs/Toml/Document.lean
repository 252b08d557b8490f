import PoolScaling.Proofs.Toml.Number
import PoolScaling.Proofs.Toml.Text

/-! Documents, read back.

A document is written line by line: headers of tables, headers of items and entries,
with empty lines before sections. Each line that is written is read as its statement
(`Reads.table`, `Reads.item`, `Reads.entry`), whatever the lines after it are. -/
namespace PoolScaling.Toml

variable {key value : String} {d : Data} {c : Char} {cs rest : List Char} {s : Statement} {ss : List Statement}

/-! ### Values on a line -/

/-- What is written for a value begins with no blank and is read as the value, up to the
end of the line. -/
structure Writes (value : String) (d : Data) : Prop where
  start : ∀ rest, skipBlanks (value.toList ++ rest) = value.toList ++ rest
  read : ∀ rounds rest, value.toList.length < rounds →
    value? rounds 0 (value.toList ++ '\n' :: rest) = some (d, '\n' :: rest)

theorem skipBlanks_cons (h : isBlank c = false) : skipBlanks (c :: cs) = c :: cs := by
  rw [skipBlanks, List.dropWhile_cons_of_neg (by simp [h])]

theorem writeText_eq (s : String) :
    ∃ quote cs, (writeText s).toList = quote :: cs ∧ (quote = '"' ∨ quote = '\'') := by
  unfold writeText
  dsimp only
  cases Form.of s.toList with
  | quoted => exact ⟨'"', _, by simp; rfl, .inl rfl⟩
  | literal => exact ⟨'\'', _, by simp; rfl, .inr rfl⟩
  | longQuoted => exact ⟨'"', _, by simp; rfl, .inl rfl⟩
  | longLiteral => exact ⟨'\'', _, by simp; rfl, .inr rfl⟩

theorem writes_text (s : String) : Writes (writeText s) (.text s) := by
  obtain ⟨quote, cs, heq, hquote⟩ := writeText_eq s
  have hblank : isBlank quote = false := by rcases hquote with rfl | rfl <;> rfl
  refine ⟨fun rest => ?_, fun rounds rest hrounds => ?_⟩
  · rw [heq, List.cons_append, skipBlanks_cons hblank]
  · have hread := text?_writeText s rest
    obtain ⟨rounds, rfl⟩ : ∃ n, rounds = n + 1 := ⟨rounds - 1, by omega⟩
    rw [heq, List.cons_append] at hread ⊢
    rcases hquote with rfl | rfl <;> rw [value?, hread] <;> rfl

theorem writes_number {x : Float} (hx : x.isFinite = true) : Writes (writeNumber x) (.float x) := by
  refine ⟨fun rest => ?_, fun rounds rest hrounds => ?_⟩
  · obtain ⟨c, cs, heq, hc⟩ := writeNumber_eq_cons hx
    have hblank : isBlank c = false := by
      rw [Bool.eq_false_iff]
      intro hblank
      have hchar : c = ' ' ∨ c = '\t' := by simpa [isBlank] using hblank
      rcases hchar with rfl | rfl <;> exact absurd hc (by decide)
    rw [heq, List.cons_append, skipBlanks_cons hblank]
  · obtain ⟨rounds, rfl⟩ : ∃ n, rounds = n + 1 := ⟨rounds - 1, by omega⟩
    exact value?_writeNumber hx rounds 0 rest

theorem writes_noItems : Writes "[]" (.list []) := by
  refine ⟨fun rest => rfl, fun rounds rest hrounds => ?_⟩
  have htwo : 2 < rounds := hrounds
  obtain ⟨rounds, rfl⟩ : ∃ n, rounds = n + 2 := ⟨rounds - 2, by omega⟩
  rfl

/-! ### Keys -/

/-- Whether a key needs no quotes. -/
def isBare (key : String) : Bool := !key.toList.isEmpty && key.toList.all isKeyChar

theorem exists_of_isBare (h : isBare key = true) :
    ∃ c cs, key.toList = c :: cs ∧ isKeyChar c = true ∧ ∀ d ∈ cs, isKeyChar d = true := by
  unfold isBare at h
  cases hkey : key.toList with
  | nil =>
    rw [hkey] at h
    cases h
  | cons c cs =>
    rw [hkey] at h
    simp only [Bool.and_eq_true, List.all_eq_true, List.forall_mem_cons] at h
    exact ⟨c, cs, rfl, h.2⟩

theorem ne_of_isKeyChar {a : Char} (h : isKeyChar c = true) (ha : isKeyChar a = false) : c ≠ a := by
  rintro rfl
  rw [h] at ha
  cases ha

theorem isBlank_of_isKeyChar (h : isKeyChar c = true) : isBlank c = false := by
  simp [isBlank, ne_of_isKeyChar (a := ' ') h rfl, ne_of_isKeyChar (a := '\t') h rfl]

theorem key?_bare (h : isBare key = true) (hc : isKeyChar c = false) (rest : List Char) :
    key? (key.toList ++ c :: rest) = some (key, c :: rest) := by
  obtain ⟨k, ks, hkey, hk, hks⟩ := exists_of_isBare h
  have hall : ∀ d ∈ key.toList, isKeyChar d = true := by
    rw [hkey]
    exact List.forall_mem_cons.mpr ⟨hk, hks⟩
  have htake : (key.toList ++ c :: rest).takeWhile isKeyChar = key.toList := by
    rw [List.takeWhile_append_of_pos hall, List.takeWhile_cons_of_neg (by simp [hc]), List.append_nil]
  have hdrop : (key.toList ++ c :: rest).dropWhile isKeyChar = c :: rest := by
    rw [List.dropWhile_append_of_pos hall, List.dropWhile_cons_of_neg (by simp [hc])]
  have hquote : ∀ a tail, isKeyChar a = false → key.toList ++ c :: rest ≠ a :: tail := by
    intro a tail ha heq
    rw [hkey] at heq
    exact ne_of_isKeyChar hk ha (List.cons.inj heq).1
  rw [key?]
  · rw [htake, hdrop, String.ofList_toList, hkey]
    rfl
  · exact fun tail => hquote '"' tail rfl
  · exact fun tail => hquote '\'' tail rfl

/-- A key of one part ends where no key character and no point follows. -/
theorem path?_bare {tail : List Char} (h : isBare key = true) (hc : isKeyChar c = false)
    (htail : skipBlanks (c :: rest) = tail) (hpoint : ∀ t, tail ≠ '.' :: t) :
    path? (key.toList ++ c :: rest) = some ([key], tail) := by
  have hkey := key?_bare h hc rest
  obtain ⟨k, ks, heq, hk, -⟩ := exists_of_isBare h
  have hstart : skipBlanks (key.toList ++ c :: rest) = key.toList ++ c :: rest := by
    rw [heq, List.cons_append, skipBlanks_cons (isBlank_of_isKeyChar hk)]
  show keys? (depthLimit - 2 + 1) (key.toList ++ c :: rest) = _
  rw [keys?, hstart, hkey]
  simp only [Option.bind_eq_bind, Option.bind_some, htail]

/-! ### Statements -/

theorem lineEnd?_newline (rest : List Char) : lineEnd? ('\n' :: rest) = some rest := rfl

theorem ne_bracket_of_isBare (h : isBare key = true) (rest t : List Char) : key.toList ++ rest ≠ '[' :: t := by
  obtain ⟨k, ks, heq, hk, -⟩ := exists_of_isBare h
  rw [heq]
  exact fun h => ne_of_isKeyChar hk rfl (List.cons.inj h).1

theorem statement?_table (h : isBare key = true) (rest : List Char) :
    statement? ('[' :: (key.toList ++ ']' :: '\n' :: rest)) = some (.table [key], rest) := by
  have hpath : path? (key.toList ++ ']' :: '\n' :: rest) = some ([key], ']' :: '\n' :: rest) :=
    path?_bare h rfl rfl fun _ => by simp
  rw [statement?, hpath]
  · rfl
  · exact fun t => ne_bracket_of_isBare h _ t

theorem statement?_item (h : isBare key = true) (rest : List Char) :
    statement? ('[' :: '[' :: (key.toList ++ ']' :: ']' :: '\n' :: rest)) = some (.item [key], rest) := by
  have hpath : path? (key.toList ++ ']' :: ']' :: '\n' :: rest) = some ([key], ']' :: ']' :: '\n' :: rest) :=
    path?_bare h rfl rfl fun _ => by simp
  rw [statement?, hpath]
  rfl

theorem toList_writeEntry (key value : String) :
    (writeEntry key value).toList = key.toList ++ ' ' :: '=' :: ' ' :: (value.toList ++ ['\n']) := by
  simp [writeEntry]

theorem statement?_entry (hkey : isBare key = true) (hvalue : Writes value d) (rest : List Char) :
    statement? ((writeEntry key value).toList ++ rest) = some (.entry [key] d, rest) := by
  have htext : (writeEntry key value).toList ++ rest =
      key.toList ++ ' ' :: '=' :: ' ' :: (value.toList ++ '\n' :: rest) := by
    simp [toList_writeEntry]
  have hpath : path? (key.toList ++ ' ' :: '=' :: ' ' :: (value.toList ++ '\n' :: rest)) =
      some ([key], '=' :: ' ' :: (value.toList ++ '\n' :: rest)) :=
    path?_bare hkey rfl rfl fun _ => by simp
  have hskip : ∀ cs, skipBlanks (' ' :: cs) = skipBlanks cs := fun _ => rfl
  have hfuel : value.toList.length < (value.toList ++ '\n' :: rest).length + 1 := by
    rw [List.length_append]
    omega
  have hread := hvalue.read ((value.toList ++ '\n' :: rest).length + 1) rest hfuel
  rw [htext, statement?, hpath]
  · simp only [after?, if_true, hskip, hvalue.start, hread, lineEnd?_newline, Option.bind_eq_bind,
      Option.bind_some]
  · exact fun t => ne_bracket_of_isBare hkey _ _
  · exact fun t => ne_bracket_of_isBare hkey _ _

/-! ### Lines -/

/-- What a text is read as, with as many rounds as it has characters and one more. -/
def Reads (cs : List Char) (ss : List Statement) : Prop :=
  ∀ rounds, cs.length < rounds → statements? rounds cs = some ss

theorem reads_nil : Reads [] [] := by
  intro rounds hrounds
  obtain ⟨rounds, rfl⟩ : ∃ n, rounds = n + 1 := ⟨rounds - 1, by omega⟩
  rfl

theorem Reads.emptyLine (h : Reads rest ss) : Reads ('\n' :: rest) ss := by
  intro rounds hrounds
  obtain ⟨rounds, rfl⟩ : ∃ n, rounds = n + 1 := ⟨rounds - 1, by omega⟩
  have hlt : rest.length < rounds := by
    rw [List.length_cons] at hrounds
    omega
  rw [← h rounds hlt]
  rfl

/-- A line that begins with a bracket or a key is the next statement. -/
theorem Reads.statement (h : Reads rest ss) (hc : isKeyChar c = true ∨ c = '[')
    (hs : statement? (c :: cs) = some (s, rest)) (hshorter : rest.length < (c :: cs).length) :
    Reads (c :: cs) (s :: ss) := by
  intro rounds hrounds
  obtain ⟨rounds, rfl⟩ : ∃ n, rounds = n + 1 := ⟨rounds - 1, by omega⟩
  have hne : ∀ {a}, ¬ (isKeyChar a = true ∨ a = '[') → c ≠ a := by
    rintro a ha rfl
    exact ha hc
  have hstart : skipBlanks (c :: cs) = c :: cs := by
    refine skipBlanks_cons ?_
    simp [isBlank, hne (a := ' ') (by decide), hne (a := '\t') (by decide)]
  have hline : lineEnd? (c :: cs) = none := by
    have hcomment : skipComment (c :: cs) = c :: cs := by
      rw [skipComment]
      exact fun _ heq => hne (by decide) (List.cons.inj heq).1
    unfold lineEnd?
    rw [hstart, hcomment]
    show newline? (c :: cs) = none
    rw [newline?]
    · exact fun _ heq => hne (by decide) (List.cons.inj heq).1
    · exact fun _ heq => hne (by decide) (List.cons.inj heq).1
  have hrest := h rounds (by omega)
  rw [statements?, hstart]
  simp only [hline, hs, Option.bind_eq_bind, Option.bind_some, hrest]

/-- A section begins with the header of its table. -/
theorem Reads.table (h : Reads rest ss) (hkey : isBare key = true) :
    Reads ('[' :: (key.toList ++ ']' :: '\n' :: rest)) (.table [key] :: ss) :=
  h.statement (.inr rfl) (statement?_table hkey rest) (by simp; omega)

theorem Reads.item (h : Reads rest ss) (hkey : isBare key = true) :
    Reads ('[' :: '[' :: (key.toList ++ ']' :: ']' :: '\n' :: rest)) (.item [key] :: ss) :=
  h.statement (.inr rfl) (statement?_item hkey rest) (by simp; omega)

theorem Reads.entry (h : Reads rest ss) (hkey : isBare key = true) (hvalue : Writes value d) :
    Reads ((writeEntry key value).toList ++ rest) (.entry [key] d :: ss) := by
  have hs := statement?_entry hkey hvalue rest
  have hlength : rest.length < ((writeEntry key value).toList ++ rest).length := by
    simp only [toList_writeEntry, List.length_append, List.length_cons]
    omega
  obtain ⟨k, ks, heq, hk, -⟩ := exists_of_isBare hkey
  rw [toList_writeEntry, heq] at hs hlength ⊢
  exact h.statement (.inl hk) hs hlength

theorem read?_of_reads {text : String} (h : Reads text.toList ss) (hmark : ∀ t, text.toList ≠ '\uFEFF' :: t) :
    read? text = (ss.foldlM Document.extend ⟨[], []⟩).map fun doc => .table (entriesData doc.root) := by
  have hread := h (text.toList.length + 1) (Nat.lt_succ_self _)
  unfold read?
  dsimp only
  split
  · rename_i cs heq
    exact absurd heq (hmark cs)
  · rw [hread, Option.map_eq_bind]
    rfl

/-- After the header of an item, entries go to that item. -/
theorem Document.extend_item {root entries entries' : Entries} {items : List Entries} {path : List String}
    (hfind : Dictionary.find? key root = some (.list (items ++ [entries])))
    (hadd : Entries.add path d .header entries = some entries') :
    Document.extend ⟨root, [key]⟩ (.entry path d) =
      some ⟨Dictionary.insert key (.list (items ++ [entries'])) root, [key]⟩ := by
  simp [Document.extend, Entries.edit, hfind, hadd]

end PoolScaling.Toml
