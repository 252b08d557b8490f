import PoolScaling.Text.Blank

/-! Texts in UTF-8.

The bytes that a text takes are counted piece by piece (`byteCount_append`), and ASCII
takes one for each character (`byteCount_of_ascii`). Bytes keep the order of texts
(`toByteArray_lt_of_lt`).

A byte of a longer character is no ASCII character, so a property that does not tell such
characters apart can be read off any byte of them (`Coarse.ofUInt8`), and bytes are passed
over as characters are (`takeWhile_encode`). -/
namespace PoolScaling.Text

variable {cs ds : List Char} {c : Char} {p : Char → Bool}

/-! ### Sizes -/

@[simp] theorem byteCount_nil : byteCount [] = 0 := rfl

theorem foldl_utf8Size (cs : List Char) (n : Nat) :
    cs.foldl (fun n c => n + c.utf8Size) n = n + byteCount cs := by
  induction cs generalizing n with
  | nil => rfl
  | cons c cs ih =>
    rw [byteCount, List.foldl_cons, List.foldl_cons, ih, ih (0 + c.utf8Size)]
    omega

@[simp] theorem byteCount_cons (c : Char) (cs : List Char) : byteCount (c :: cs) = c.utf8Size + byteCount cs := by
  rw [byteCount, List.foldl_cons, foldl_utf8Size, Nat.zero_add]

@[simp] theorem byteCount_append (cs ds : List Char) : byteCount (cs ++ ds) = byteCount cs + byteCount ds := by
  rw [byteCount, List.foldl_append, foldl_utf8Size, ← byteCount]

theorem byteCount_pos (h : cs ≠ []) : 0 < byteCount cs := by
  cases cs with
  | nil => exact absurd rfl h
  | cons c cs =>
    rw [byteCount_cons]
    exact Nat.add_pos_left c.utf8Size_pos _

/-! ### ASCII -/

theorem utf8Size_of_ascii (h : c.toNat < 128) : c.utf8Size = 1 := by
  rw [Char.utf8Size_eq_one_iff, UInt32.le_iff_toNat_le]
  exact Nat.le_of_lt_succ h

theorem byteCount_of_ascii (h : ∀ c ∈ cs, c.toNat < 128) : byteCount cs = cs.length := by
  induction cs with
  | nil => rfl
  | cons c cs ih =>
    obtain ⟨hc, hcs⟩ := List.forall_mem_cons.mp h
    rw [byteCount_cons, utf8Size_of_ascii hc, ih hcs, List.length_cons, Nat.add_comm]

theorem isDigit_iff : c.isDigit = true ↔ 48 ≤ c.toNat ∧ c.toNat ≤ 57 := by
  have hdef : c.isDigit = (decide (48 ≤ c.toNat) && decide (c.toNat ≤ 57)) := rfl
  rw [hdef, Bool.and_eq_true, decide_eq_true_eq, decide_eq_true_eq]

theorem isAlpha_iff : c.isAlpha = true ↔ (65 ≤ c.toNat ∧ c.toNat ≤ 90) ∨ (97 ≤ c.toNat ∧ c.toNat ≤ 122) := by
  have hdef : c.isAlpha = (decide (65 ≤ c.toNat ∧ c.toNat ≤ 90) ||
      (decide (97 ≤ c.toNat) && decide (c.toNat ≤ 122))) := rfl
  rw [hdef, Bool.or_eq_true, Bool.and_eq_true, decide_eq_true_eq, decide_eq_true_eq, decide_eq_true_eq]

theorem ascii_of_isDigit (h : c.isDigit = true) : c.toNat < 128 := by
  rw [isDigit_iff] at h
  omega

theorem ascii_of_isAlpha (h : c.isAlpha = true) : c.toNat < 128 := by
  rw [isAlpha_iff] at h
  omega

/-! ### Bytes -/

def encode (cs : List Char) : List UInt8 := cs.flatMap String.utf8EncodeChar

theorem encode_cons (c : Char) (cs : List Char) : encode (c :: cs) = String.utf8EncodeChar c ++ encode cs := rfl

theorem encode_append (cs ds : List Char) : encode (cs ++ ds) = encode cs ++ encode ds := List.flatMap_append

@[simp] theorem length_encode (cs : List Char) : (encode cs).length = byteCount cs := by
  induction cs with
  | nil => rfl
  | cons c cs ih => rw [encode_cons, List.length_append, String.length_utf8EncodeChar, ih, byteCount_cons]

theorem utf8Encode_eq (cs : List Char) : cs.utf8Encode = (encode cs).toByteArray := rfl

theorem toList_toByteArray (s : String) : s.toByteArray.data.toList = encode s.toList := by
  rw [← String.utf8Encode_toList, utf8Encode_eq, List.toList_data_toByteArray]

theorem utf8ByteSize_eq (s : String) : s.utf8ByteSize = byteCount s.toList := by
  rw [← length_encode, ← toList_toByteArray]
  rfl

/-! ### Order -/

/-- Bytes are in the order of the first that differs. -/
theorem ofNat_cons_lt {m n : Nat} {bs bs' : List UInt8} (hn : n < 256) (hle : m ≤ n) (h : m = n → bs < bs') :
    UInt8.ofNat m :: bs < UInt8.ofNat n :: bs' := by
  rcases Nat.lt_or_eq_of_le hle with hlt | heq
  · refine List.cons_lt_cons_iff.mpr (.inl (UInt8.lt_iff_toNat_lt.mpr ?_))
    rw [UInt8.toNat_ofNat', UInt8.toNat_ofNat', Nat.mod_eq_of_lt (by omega), Nat.mod_eq_of_lt hn]
    exact hlt
  · exact List.cons_lt_cons_iff.mpr (.inr ⟨congrArg UInt8.ofNat heq, h heq⟩)

/-- A longer character begins with a greater byte, and the bytes of characters of one
length are digits of their numbers. -/
theorem utf8EncodeChar_append_lt {c d : Char} (h : c < d) (as bs : List UInt8) :
    String.utf8EncodeChar c ++ as < String.utf8EncodeChar d ++ bs := by
  have hvalue : c.val.toNat < d.val.toNat := h
  have hbound : d.val.toNat < 0x110000 := by
    have hvalid := d.valid
    unfold UInt32.isValidChar Nat.isValidChar at hvalid
    omega
  unfold String.utf8EncodeChar
  dsimp only
  generalize c.val.toNat = v at hvalue
  generalize d.val.toNat = w at hvalue hbound
  by_cases hw : w ≤ 127
  · rw [if_pos hw, if_pos (by omega : v ≤ 127)]
    exact ofNat_cons_lt (by omega) (by omega) fun h => absurd h (by omega)
  rw [if_neg hw]
  by_cases hw : w ≤ 2047
  · rw [if_pos hw]
    by_cases hv : v ≤ 127
    · rw [if_pos hv]
      exact ofNat_cons_lt (by omega) (by omega) fun h => absurd h (by omega)
    · rw [if_neg hv, if_pos (by omega : v ≤ 2047)]
      exact ofNat_cons_lt (by omega) (by omega) fun _ => ofNat_cons_lt (by omega) (by omega) fun h =>
        absurd h (by omega)
  rw [if_neg hw]
  by_cases hw : w ≤ 65535
  · rw [if_pos hw]
    by_cases hv : v ≤ 127
    · rw [if_pos hv]
      exact ofNat_cons_lt (by omega) (by omega) fun h => absurd h (by omega)
    rw [if_neg hv]
    by_cases hv : v ≤ 2047
    · rw [if_pos hv]
      exact ofNat_cons_lt (by omega) (by omega) fun h => absurd h (by omega)
    · rw [if_neg hv, if_pos (by omega : v ≤ 65535)]
      exact ofNat_cons_lt (by omega) (by omega) fun _ => ofNat_cons_lt (by omega) (by omega) fun _ =>
        ofNat_cons_lt (by omega) (by omega) fun h => absurd h (by omega)
  rw [if_neg hw]
  by_cases hv : v ≤ 127
  · rw [if_pos hv]
    exact ofNat_cons_lt (by omega) (by omega) fun h => absurd h (by omega)
  rw [if_neg hv]
  by_cases hv : v ≤ 2047
  · rw [if_pos hv]
    exact ofNat_cons_lt (by omega) (by omega) fun h => absurd h (by omega)
  rw [if_neg hv]
  by_cases hv : v ≤ 65535
  · rw [if_pos hv]
    exact ofNat_cons_lt (by omega) (by omega) fun h => absurd h (by omega)
  · rw [if_neg hv]
    exact ofNat_cons_lt (by omega) (by omega) fun _ => ofNat_cons_lt (by omega) (by omega) fun _ =>
      ofNat_cons_lt (by omega) (by omega) fun _ => ofNat_cons_lt (by omega) (by omega) fun h =>
        absurd h (by omega)

theorem encode_lt_encode (h : cs < ds) : encode cs < encode ds := by
  induction cs generalizing ds with
  | nil =>
    cases ds with
    | nil => exact absurd h (List.lt_irrefl [])
    | cons d ds =>
      obtain ⟨b, bs, hbs⟩ := List.exists_cons_of_ne_nil (@String.utf8EncodeChar_ne_nil d)
      rw [encode_cons, hbs]
      exact List.nil_lt_cons b _
  | cons c cs ih =>
    cases ds with
    | nil => exact absurd h (List.not_lt_nil (c :: cs))
    | cons d ds =>
      rw [encode_cons, encode_cons]
      rcases List.cons_lt_cons_iff.mp h with hlt | ⟨rfl, hrest⟩
      · exact utf8EncodeChar_append_lt hlt _ _
      · exact List.append_left_lt (ih hrest)

/-- **Order.** Texts in the order of their code points are in that of their bytes. -/
theorem toByteArray_lt_of_lt {s s' : String} (h : s < s') :
    s.toByteArray.data.toList < s'.toByteArray.data.toList := by
  rw [toList_toByteArray, toList_toByteArray]
  exact encode_lt_encode (String.lt_iff.mp h)

/-! ### Bytes of a kind -/

/-- Whether a property is the same for all characters beyond ASCII. -/
def Coarse (p : Char → Bool) : Prop := ∀ c d : Char, 128 ≤ c.toNat → 128 ≤ d.toNat → p c = p d

/-- A property that no character beyond ASCII has. -/
theorem Coarse.of_ascii (h : ∀ c, p c = true → c.toNat < 128) : Coarse p := by
  have hfalse : ∀ c : Char, 128 ≤ c.toNat → p c = false := fun c hc => by
    rw [← Bool.not_eq_true]
    exact fun hp => absurd (h c hp) (Nat.not_lt.mpr hc)
  intro c d hc hd
  rw [hfalse c hc, hfalse d hd]

theorem coarse_eq {a : Char} (ha : a.toNat < 128) : Coarse (fun c => decide (c = a)) :=
  .of_ascii fun _ h => of_decide_eq_true h ▸ ha

theorem coarse_ne {a : Char} (ha : a.toNat < 128) : Coarse (fun c => decide (c ≠ a)) := fun c d hc hd => by
  have heq := coarse_eq ha c d hc hd
  rw [decide_eq_decide] at heq ⊢
  exact not_congr heq

theorem coarse_isDigit : Coarse Char.isDigit := .of_ascii fun _ => ascii_of_isDigit

theorem toNat_ofUInt8 (b : UInt8) : (Char.ofUInt8 b).toNat = b.toNat := UInt8.toNat_toUInt32 b

theorem ofUInt8_of_mem {b : UInt8} (hb : b ∈ String.utf8EncodeChar c) :
    Char.ofUInt8 b = c ∨ 128 ≤ c.toNat ∧ 128 ≤ (Char.ofUInt8 b).toNat := by
  have hc : c.val.toNat = c.toNat := rfl
  rw [toNat_ofUInt8]
  by_cases hascii : c.toNat < 128
  · left
    rw [String.utf8EncodeChar_eq_singleton (utf8Size_of_ascii hascii), List.mem_singleton] at hb
    refine Char.toNat_inj.mp ?_
    rw [toNat_ofUInt8, hb, UInt32.toNat_toUInt8, hc]
    exact Nat.mod_eq_of_lt (by omega)
  · right
    refine ⟨Nat.not_lt.mp hascii, ?_⟩
    unfold String.utf8EncodeChar at hb
    dsimp only at hb
    rw [hc, if_neg (by omega)] at hb
    -- Every byte has its highest bit set.
    have hbyte : ∀ k, 128 ≤ k → k < 256 → 128 ≤ (UInt8.ofNat k).toNat := fun k hlow hhigh => by
      rw [UInt8.toNat_ofNat', Nat.mod_eq_of_lt hhigh]
      exact hlow
    split at hb
    · simp only [List.mem_cons, List.not_mem_nil, or_false] at hb
      obtain rfl | rfl := hb <;> exact hbyte _ (by omega) (by omega)
    · split at hb
      · simp only [List.mem_cons, List.not_mem_nil, or_false] at hb
        obtain rfl | rfl | rfl := hb <;> exact hbyte _ (by omega) (by omega)
      · simp only [List.mem_cons, List.not_mem_nil, or_false] at hb
        obtain rfl | rfl | rfl | rfl := hb <;> exact hbyte _ (by omega) (by omega)

theorem Coarse.ofUInt8 (hp : Coarse p) {b : UInt8} (hb : b ∈ String.utf8EncodeChar c) :
    p (Char.ofUInt8 b) = p c := by
  obtain heq | ⟨hc, hbyte⟩ := ofUInt8_of_mem hb
  · rw [heq]
  · exact hp _ _ hbyte hc

theorem takeWhile_encode (hp : Coarse p) (cs : List Char) :
    (encode cs).takeWhile (fun b => p (Char.ofUInt8 b)) = encode (cs.takeWhile p) := by
  induction cs with
  | nil => rfl
  | cons c cs ih =>
    rw [encode_cons]
    by_cases hc : p c = true
    · rw [List.takeWhile_append_of_pos fun b hb => (hp.ofUInt8 hb).trans hc, ih, List.takeWhile_cons_of_pos hc,
        encode_cons]
    · obtain ⟨b, bs, hbs⟩ := List.exists_cons_of_ne_nil (@String.utf8EncodeChar_ne_nil c)
      have hb : ¬ p (Char.ofUInt8 b) = true := by
        rw [hp.ofUInt8 (by rw [hbs]; exact List.mem_cons_self)]
        exact hc
      rw [hbs, List.cons_append,
        List.takeWhile_cons_of_neg (p := fun b => p (Char.ofUInt8 b)) hb, List.takeWhile_cons_of_neg hc]
      rfl

theorem any_head?_encode (hp : Coarse p) (cs : List Char) :
    ((encode cs).head?.map Char.ofUInt8).any p = cs.head?.any p := by
  cases cs with
  | nil => rfl
  | cons c cs =>
    obtain ⟨b, bs, hbs⟩ := List.exists_cons_of_ne_nil (@String.utf8EncodeChar_ne_nil c)
    rw [encode_cons, hbs]
    exact hp.ofUInt8 (by rw [hbs]; exact List.mem_cons_self)

/-! ### Boundaries of characters -/

variable {s : String}

theorem eq_append_of_toList (h : s.toList = cs ++ ds) : s = String.ofList cs ++ String.ofList ds := by
  rw [← String.ofList_append, ← h, String.ofList_toList]

theorem isValid_byteCount (h : s.toList = cs ++ ds) : (String.Pos.Raw.mk (byteCount cs)).IsValid s := by
  rw [String.Pos.Raw.isValid_iff_exists_append]
  refine ⟨_, _, eq_append_of_toList h, String.Pos.Raw.ext ?_⟩
  rw [String.byteIdx_rawEndPos, utf8ByteSize_eq, String.toList_ofList]

/-- What stands between two boundaries. -/
theorem extract_eq {es : List Char} {b e : s.Pos} (h : s.toList = cs ++ (ds ++ es))
    (hb : b.offset.byteIdx = byteCount cs) (he : e.offset.byteIdx = byteCount (cs ++ ds)) :
    s.extract b e = String.ofList ds := by
  have hbytes : (s.extract b e).toByteArray.data.toList = encode ds := by
    rw [String.toByteArray_extract, hb, he, ByteArray.data_extract, Array.toList_extract, List.extract,
      toList_toByteArray, h, encode_append, encode_append, byteCount_append, Nat.add_sub_cancel_left,
      ← length_encode, ← length_encode, List.drop_left, List.take_left]
  refine String.toByteArray_inj.mp (ByteArray.ext (Array.toList_inj.mp ?_))
  rw [hbytes, toList_toByteArray, String.toList_ofList]

end PoolScaling.Text
