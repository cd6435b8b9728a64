import ExprFront.Proofs.Lexical

/-!
Texts as bytes, in UTF-8. A text can be cut only between two of its characters: `cut` refuses any
other offset. A character under 128 is one byte, which stands in no longer character, so that a
byte search finds it where it is.
-/

namespace ExprFront.Text

/-- How many bytes some characters take. -/
def width (cs : List Char) : Nat :=
  cs.foldr (fun c n => c.utf8Size + n) 0

def bytes (s : String) : List UInt8 :=
  s.toByteArray.data.toList

/-- An offset out of a text, or inside one of its characters. -/
structure BadSlice where
  text : String
  offset : Nat
  deriving DecidableEq

/-- The two parts of a text before and after an offset. -/
def cut (s : String) (n : Nat) : Except BadSlice (String × String) :=
  if h : (String.Pos.Raw.mk n).IsValid s then
    .ok (s.extract s.startPos (s.pos ⟨n⟩ h), s.extract (s.pos ⟨n⟩ h) s.endPos)
  else .error ⟨s, n⟩

def sliceTo (s : String) (n : Nat) : Except BadSlice String :=
  (cut s n).map Prod.fst

def sliceFrom (s : String) (n : Nat) : Except BadSlice String :=
  (cut s n).map Prod.snd

def isDigitByte (b : UInt8) : Bool :=
  48 ≤ b && b ≤ 57

/-- How many bytes at the front of a text are digits. -/
def digitRun (s : String) : Nat :=
  ((bytes s).takeWhile isDigitByte).length

/-- The offset of the first byte that is the one byte of a character under 128. -/
def find? (mark : Char) (s : String) : Option Nat :=
  (bytes s).findIdx? (· == mark.toUInt8)

/-! Widths. -/

@[simp] theorem width_nil : width [] = 0 := rfl

@[simp] theorem width_cons (c : Char) (cs : List Char) :
    width (c :: cs) = c.utf8Size + width cs := rfl

theorem width_append (a b : List Char) : width (a ++ b) = width a + width b := by
  induction a with
  | nil => exact (Nat.zero_add _).symm
  | cons c a ih => rw [List.cons_append, width_cons, ih, width_cons, Nat.add_assoc]

theorem utf8ByteSize_ofList (cs : List Char) : (String.ofList cs).utf8ByteSize = width cs := by
  induction cs with
  | nil => rfl
  | cons c cs ih =>
      rw [String.ofList_cons, String.utf8ByteSize_append, ih, String.utf8ByteSize_singleton,
        width_cons]

theorem width_pos {cs : List Char} (h : cs ≠ []) : 0 < width cs := by
  cases cs with
  | nil => exact absurd rfl h
  | cons c cs => exact Nat.lt_add_right _ c.utf8Size_pos

theorem width_eq_zero_iff {cs : List Char} : width cs = 0 ↔ cs = [] := by
  constructor
  · intro h
    exact Decidable.byContradiction fun hne => Nat.ne_of_gt (width_pos hne) h
  · rintro rfl
    rfl

theorem utf8Size_eq_one {c : Char} (h : c.toNat < 128) : c.utf8Size = 1 := by
  rw [Char.utf8Size_eq_one_iff, UInt32.le_iff_toNat_le]
  exact Nat.le_of_lt_succ h

/-- Of characters under 128 there are as many as bytes. -/
theorem width_eq_length {cs : List Char} (h : ∀ c ∈ cs, c.toNat < 128) :
    width cs = cs.length := by
  induction cs with
  | nil => rfl
  | cons c cs ih =>
      obtain ⟨hc, hcs⟩ := List.forall_mem_cons.mp h
      rw [width_cons, utf8Size_eq_one hc, ih hcs, List.length_cons, Nat.add_comm]

/-! Cuts. -/

theorem ok_bind {α β : Type} (a : α) (f : α → Except BadSlice β) :
    ((.ok a : Except BadSlice α) >>= f) = f a := rfl

theorem pure_eq_ok {α : Type} (a : α) : (pure a : Except BadSlice α) = .ok a := rfl

theorem cut_append (a b : String) : cut (a ++ b) a.utf8ByteSize = .ok (a, b) := by
  have hvalid : (String.Pos.Raw.mk a.utf8ByteSize).IsValid (a ++ b) :=
    String.Pos.Raw.isValid_iff_exists_append.mpr ⟨a, b, rfl, rfl⟩
  rw [cut, dif_pos hvalid, Except.ok.injEq, Prod.mk.injEq, ← String.toByteArray_inj,
    ← String.toByteArray_inj, String.toByteArray_extract, String.toByteArray_extract,
    String.toByteArray_append]
  exact ⟨ByteArray.extract_append_eq_left rfl,
    ByteArray.extract_append_eq_right rfl String.utf8ByteSize_append⟩

/-- A text can be cut where whole characters end, and nowhere else. -/
theorem cut_eq_ok_iff {s a b : String} {n : Nat} :
    cut s n = .ok (a, b) ↔ s = a ++ b ∧ n = a.utf8ByteSize := by
  constructor
  · intro h
    by_cases hvalid : (String.Pos.Raw.mk n).IsValid s
    · obtain ⟨front, rest, rfl, hn⟩ := String.Pos.Raw.isValid_iff_exists_append.mp hvalid
      have hsize : n = front.utf8ByteSize := congrArg String.Pos.Raw.byteIdx hn
      rw [hsize, cut_append] at h
      cases h
      exact ⟨rfl, hsize⟩
    · rw [cut, dif_neg hvalid] at h
      cases h
  · rintro ⟨rfl, rfl⟩
    exact cut_append a b

example : cut "ö" 1 = .error ⟨"ö", 1⟩ := rfl

theorem cut_width (a b : List Char) : cut (String.ofList (a ++ b)) (width a) =
    .ok (String.ofList a, String.ofList b) := by
  rw [cut_eq_ok_iff, String.ofList_append, utf8ByteSize_ofList]
  exact ⟨rfl, rfl⟩

theorem sliceTo_width (a b : List Char) :
    sliceTo (String.ofList (a ++ b)) (width a) = .ok (String.ofList a) := by
  rw [sliceTo, cut_width]
  rfl

theorem sliceFrom_width (a b : List Char) :
    sliceFrom (String.ofList (a ++ b)) (width a) = .ok (String.ofList b) := by
  rw [sliceFrom, cut_width]
  rfl

/-! Searches. -/

theorem bytes_ofList (cs : List Char) :
    bytes (String.ofList cs) = cs.flatMap String.utf8EncodeChar := by
  rw [bytes, String.toByteArray_ofList, List.utf8Encode, List.toList_data_toByteArray]

theorem length_flatMap (cs : List Char) :
    (cs.flatMap String.utf8EncodeChar).length = width cs := by
  induction cs with
  | nil => rfl
  | cons c cs ih =>
      rw [List.flatMap_cons, List.length_append, ih, String.length_utf8EncodeChar, width_cons]

theorem toNat_toUInt8 {c : Char} (h : c.toNat < 128) : c.toUInt8.toNat = c.toNat := by
  change c.toNat % 256 = c.toNat
  omega

theorem utf8EncodeChar_of_lt {c : Char} (h : c.toNat < 128) :
    String.utf8EncodeChar c = [c.toUInt8] :=
  String.utf8EncodeChar_eq_singleton (utf8Size_eq_one h)

theorem le_of_mem_utf8EncodeChar {c : Char} (h : 128 ≤ c.toNat) {b : UInt8}
    (hb : b ∈ String.utf8EncodeChar c) : 128 ≤ b.toNat := by
  -- Each byte of a longer character is a few of its bits on top of a marker from 128 on.
  have hmarked : ∃ bits marker, bits + marker < 256 ∧ 128 ≤ marker ∧
      b = UInt8.ofNat (bits + marker) := by
    have hlarge : ¬ c.val.toNat ≤ 127 := Nat.not_le_of_lt h
    rw [String.utf8EncodeChar, if_neg hlarge] at hb
    split at hb
    · simp only [List.mem_cons, List.not_mem_nil, or_false] at hb
      rcases hb with rfl | rfl <;> exact ⟨_, _, by omega, by omega, rfl⟩
    · split at hb
      · simp only [List.mem_cons, List.not_mem_nil, or_false] at hb
        rcases hb with rfl | rfl | rfl <;> exact ⟨_, _, by omega, by omega, rfl⟩
      · simp only [List.mem_cons, List.not_mem_nil, or_false] at hb
        rcases hb with rfl | rfl | rfl | rfl <;> exact ⟨_, _, by omega, by omega, rfl⟩
  obtain ⟨bits, marker, hlt, hmarker, rfl⟩ := hmarked
  rw [UInt8.toNat_ofNat', Nat.mod_eq_of_lt hlt]
  exact Nat.le_add_left_of_le hmarker

/-- A byte under 128 is a character by itself. -/
theorem toNat_eq_of_mem {c : Char} {b : UInt8} (hb : b ∈ String.utf8EncodeChar c)
    (hlt : b.toNat < 128) : c.toNat = b.toNat := by
  by_cases hc : c.toNat < 128
  · rw [utf8EncodeChar_of_lt hc, List.mem_singleton] at hb
    rw [hb, toNat_toUInt8 hc]
  · have hle := le_of_mem_utf8EncodeChar (Nat.le_of_not_lt hc) hb
    omega

theorem toUInt8_mem_iff {mark c : Char} (hmark : mark.toNat < 128) :
    mark.toUInt8 ∈ String.utf8EncodeChar c ↔ c = mark := by
  constructor
  · intro hmem
    have heq := toNat_eq_of_mem hmem (by rwa [toNat_toUInt8 hmark])
    rw [toNat_toUInt8 hmark] at heq
    exact Char.toNat_inj.mp heq
  · rintro rfl
    rw [utf8EncodeChar_of_lt hmark]
    exact List.mem_singleton_self _

theorem isDigitByte_iff {b : UInt8} : isDigitByte b ↔ 48 ≤ b.toNat ∧ b.toNat ≤ 57 := by
  simp [isDigitByte, UInt8.le_iff_toNat_le]

/-- No digit byte stands in a character that is not a digit. -/
theorem isDigit_iff_of_mem {c : Char} {b : UInt8} (hb : b ∈ String.utf8EncodeChar c) :
    isDigitByte b ↔ c.isDigit := by
  rw [isDigitByte_iff, Rule.isDigit_iff]
  by_cases hlt : b.toNat < 128
  · rw [toNat_eq_of_mem hb hlt]
  · have hc : ¬ c.toNat < 128 := by
      intro hc
      rw [utf8EncodeChar_of_lt hc, List.mem_singleton] at hb
      rw [hb, toNat_toUInt8 hc] at hlt
      exact hlt hc
    omega

theorem takeWhile_isDigitByte (cs : List Char) :
    (cs.flatMap String.utf8EncodeChar).takeWhile isDigitByte =
      (cs.takeWhile Char.isDigit).flatMap String.utf8EncodeChar := by
  induction cs with
  | nil => rfl
  | cons c cs ih =>
      rw [List.flatMap_cons]
      by_cases hc : c.isDigit
      · have hall : ∀ b ∈ String.utf8EncodeChar c, isDigitByte b :=
          fun b hb => (isDigit_iff_of_mem hb).mpr hc
        rw [List.takeWhile_append_of_pos hall, ih, List.takeWhile_cons_of_pos hc, List.flatMap_cons]
      · have hne : String.utf8EncodeChar c ≠ [] := String.utf8EncodeChar_ne_nil
        obtain ⟨b, tail, htail⟩ := List.exists_cons_of_ne_nil hne
        have hb : ¬ isDigitByte b := by
          rw [isDigit_iff_of_mem (htail ▸ List.mem_cons_self)]
          exact hc
        rw [htail, List.cons_append, List.takeWhile_cons_of_neg hb, List.takeWhile_cons_of_neg hc]
        rfl

theorem digitRun_ofList (cs : List Char) :
    digitRun (String.ofList cs) = width (Rule.digits cs) := by
  rw [digitRun, bytes_ofList, takeWhile_isDigitByte, length_flatMap, Rule.digits]

theorem find?_ofList {mark : Char} (hmark : mark.toNat < 128) (cs : List Char) :
    find? mark (String.ofList cs) =
      if mark ∈ cs then some (width (cs.takeWhile (· ≠ mark))) else none := by
  rw [find?, bytes_ofList]
  induction cs with
  | nil => rfl
  | cons c cs ih =>
      rw [List.flatMap_cons, List.findIdx?_append]
      by_cases hc : c = mark
      · subst hc
        simp [utf8EncodeChar_of_lt hmark]
      · have hnone : (String.utf8EncodeChar c).findIdx? (· == mark.toUInt8) = none := by
          rw [List.findIdx?_eq_none_iff]
          intro b hb
          rw [beq_eq_false_iff_ne]
          rintro rfl
          exact hc ((toUInt8_mem_iff hmark).mp hb)
        rw [hnone, Option.none_or, ih, String.length_utf8EncodeChar]
        by_cases hmem : mark ∈ cs
        · simp [hmem, hc, Nat.add_comm]
        · simp [hmem, Ne.symm hc]

end ExprFront.Text
