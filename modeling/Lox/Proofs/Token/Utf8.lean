import Mathlib.Data.List.Basic
import Mathlib.Tactic.Common

/-!
# Bytes of a text

A text is stored as bytes: an ASCII character is one byte below 128, and any other character is a
lead byte from 192 on followed by *continuation* bytes, which lie in between. So a test on single
bytes that treats all bytes from 128 on alike tells where a stretch of characters ends
(`Tells.takeWhile_encoded`), and a lead byte with the continuation bytes after it is one character.

`slice?` cuts a text between two byte positions, and fails if one of them is inside of a character.
-/

namespace Lox

/-- The bytes of characters, one after the other. -/
def encoded (cs : List Char) : List UInt8 := cs.flatMap String.utf8EncodeChar

def bytesOf (source : String) : List UInt8 := source.toByteArray.data.toList

theorem bytesOf_eq (source : String) : bytesOf source = encoded source.toList := by
  rw [bytesOf, ← String.utf8Encode_toList, List.utf8Encode]
  simp [encoded]

@[simp]
theorem encoded_nil : encoded [] = [] := rfl

@[simp]
theorem encoded_cons (c : Char) (cs : List Char) :
    encoded (c :: cs) = String.utf8EncodeChar c ++ encoded cs := rfl

@[simp]
theorem encoded_append (cs ds : List Char) : encoded (cs ++ ds) = encoded cs ++ encoded ds :=
  List.flatMap_append

theorem encoded_eq_nil {cs : List Char} : encoded cs = [] ↔ cs = [] := by
  cases cs with
  | nil => simp
  | cons c cs => simp

/-! ### One character -/

/-- A byte that goes on with a character. -/
def isContinuation (b : UInt8) : Bool := b &&& 0xC0 == 0x80

theorem forall_byte {P : UInt8 → Prop} (h : ∀ n : Fin 256, P (UInt8.ofNat n)) (b : UInt8) :
    P b := by
  have hb := h ⟨b.toNat, b.toNat_lt⟩
  rwa [UInt8.ofNat_toNat] at hb

theorem forall_ascii {P : Char → Prop} (h : ∀ n : Fin 128, P (Char.ofNat n)) {c : Char}
    (hc : c.toNat < 128) : P c := by
  have hn := h ⟨c.toNat, hc⟩
  rwa [Char.ofNat_toNat] at hn

theorem isContinuation_iff (b : UInt8) :
    isContinuation b = decide (128 ≤ b.toNat ∧ b.toNat < 192) :=
  forall_byte (P := fun b => isContinuation b = decide (128 ≤ b.toNat ∧ b.toNat < 192))
    (by decide +kernel) b

theorem encoded_ascii {c : Char} (h : c.toNat < 128) : String.utf8EncodeChar c = [c.toUInt8] := by
  rw [String.utf8EncodeChar]
  have hle : c.val.toNat ≤ 127 := Nat.le_of_lt_succ h
  simp only [hle, if_true]
  rfl

theorem toNat_toUInt8 {c : Char} (h : c.toNat < 128) : c.toUInt8.toNat = c.toNat :=
  Nat.mod_eq_of_lt (Nat.lt_trans h (by decide))

theorem toUInt8_inj {c d : Char} (hc : c.toNat < 128) (hd : d.toNat < 128) :
    c.toUInt8 = d.toUInt8 ↔ c = d := by
  rw [← UInt8.toNat_inj, toNat_toUInt8 hc, toNat_toUInt8 hd, Char.toNat_inj]

/-- A character beyond ASCII is a lead byte and continuation bytes. -/
theorem encoded_wide {c : Char} (h : 128 ≤ c.toNat) :
    ∃ b bs, String.utf8EncodeChar c = b :: bs ∧ 192 ≤ b.toNat ∧
      ∀ d ∈ bs, isContinuation d = true := by
  have hlead : ∀ n < 256, 192 ≤ n → 192 ≤ (UInt8.ofNat n).toNat := by decide +kernel
  have hmore : ∀ n, isContinuation (UInt8.ofNat (n % 64 + 128)) = true := by
    intro n
    have hfin : ∀ k : Fin 64, isContinuation (UInt8.ofNat (k + 128)) = true := by decide +kernel
    exact hfin ⟨n % 64, Nat.mod_lt _ (by decide)⟩
  have hnot : ¬c.val.toNat ≤ 127 := Nat.not_le.mpr h
  rw [String.utf8EncodeChar]
  simp only [hnot, if_false]
  split_ifs with htwo hthree
  all_goals
    refine ⟨_, _, rfl, hlead _ (by omega) (by omega), ?_⟩
    simp only [List.mem_cons, List.not_mem_nil, or_false, forall_eq_or_imp, forall_eq, hmore,
      and_self]

theorem isContinuation_head (cs : List Char) :
    ∀ b ∈ (encoded cs).head?, isContinuation b = false := by
  intro b hb
  cases cs with
  | nil => simp at hb
  | cons c cs =>
    by_cases hc : c.toNat < 128
    · rw [encoded_cons, encoded_ascii hc, List.singleton_append, List.head?_cons,
        Option.mem_some] at hb
      subst hb
      exact forall_ascii (P := fun c => isContinuation c.toUInt8 = false) (by decide +kernel) hc
    · obtain ⟨lead, bs, heq, hlead, -⟩ := encoded_wide (Nat.le_of_not_lt hc)
      rw [encoded_cons, heq, List.cons_append, List.head?_cons, Option.mem_some] at hb
      subst hb
      rw [isContinuation_iff, decide_eq_false_iff_not]
      omega

/-! ### Stretches of characters -/

/-- `p` tells the characters with `q` by their bytes. -/
structure Tells (p : UInt8 → Bool) (q : Char → Bool) : Prop where
  passes : ∀ c, q c = true → ∀ b ∈ String.utf8EncodeChar c, p b = true
  stops : ∀ c, q c = false → ∃ b bs, String.utf8EncodeChar c = b :: bs ∧ p b = false

/-- A test that is the same on ASCII, and the same for all bytes and all characters beyond. -/
theorem tells {p : UInt8 → Bool} {q : Char → Bool} (r : Bool)
    (hascii : ∀ n : Fin 128, p (Char.ofNat n).toUInt8 = q (Char.ofNat n))
    (hbyte : ∀ b, 128 ≤ b.toNat → p b = r) (hchar : ∀ c, 128 ≤ c.toNat → q c = r) : Tells p q where
  passes c hc b hb := by
    by_cases hwide : c.toNat < 128
    · rw [encoded_ascii hwide, List.mem_singleton] at hb
      rw [hb, forall_ascii (P := fun c => p c.toUInt8 = q c) hascii hwide, hc]
    · have hr := hchar c (Nat.le_of_not_lt hwide)
      obtain ⟨lead, bs, heq, hlead, hmore⟩ := encoded_wide (Nat.le_of_not_lt hwide)
      rw [heq] at hb
      rw [hbyte b, ← hr, hc]
      rcases List.mem_cons.mp hb with rfl | hb
      · omega
      · have hcont := hmore b hb
        rw [isContinuation_iff, decide_eq_true_eq] at hcont
        exact hcont.1
  stops c hc := by
    by_cases hwide : c.toNat < 128
    · refine ⟨_, [], encoded_ascii hwide, ?_⟩
      rw [forall_ascii (P := fun c => p c.toUInt8 = q c) hascii hwide, hc]
    · have hr := hchar c (Nat.le_of_not_lt hwide)
      obtain ⟨lead, bs, heq, hlead, -⟩ := encoded_wide (Nat.le_of_not_lt hwide)
      exact ⟨lead, bs, heq, by rw [hbyte lead (by omega), ← hr, hc]⟩

namespace Tells

variable {p : UInt8 → Bool} {q : Char → Bool}

theorem takeWhile_encoded (h : Tells p q) (cs : List Char) :
    (encoded cs).takeWhile p = encoded (cs.takeWhile q) := by
  induction cs with
  | nil => rfl
  | cons c cs ih =>
    rw [encoded_cons, List.takeWhile_cons]
    cases hc : q c with
    | true => rw [List.takeWhile_append_of_pos (h.passes c hc), ih, if_pos rfl, encoded_cons]
    | false =>
      obtain ⟨b, bs, heq, hb⟩ := h.stops c hc
      rw [heq, List.cons_append, List.takeWhile_cons_of_neg (by simp [hb])]
      rfl

end Tells

theorem tells_until {d : Char} (hd : d.toNat < 128) : Tells (· != d.toUInt8) (· != d) := by
  refine tells true ?_ ?_ ?_
  · intro n
    have hn : (Char.ofNat n).toNat < 128 := by
      have hall : ∀ n : Fin 128, (Char.ofNat n).toNat < 128 := by decide +kernel
      exact hall n
    rw [Bool.eq_iff_iff, bne_iff_ne, bne_iff_ne, Ne, toUInt8_inj hn hd]
  · intro b hb
    rw [bne_iff_ne, Ne, ← UInt8.toNat_inj, toNat_toUInt8 hd]
    omega
  · intro c hc
    rw [bne_iff_ne]
    rintro rfl
    omega

theorem count_encoded {d : Char} (hd : d.toNat < 128) (cs : List Char) :
    (encoded cs).count d.toUInt8 = cs.count d := by
  induction cs with
  | nil => rfl
  | cons c cs ih =>
    rw [encoded_cons, List.count_append, ih, List.count_cons, Nat.add_comm, Nat.add_right_inj]
    by_cases hc : c = d
    · rw [hc, encoded_ascii hd]
      simp
    · have hnot : d.toUInt8 ∉ String.utf8EncodeChar c := fun hmem => by
        have hpass := (tells_until hd).passes c (by simpa using hc) _ hmem
        simp at hpass
      rw [List.count_eq_zero_of_not_mem hnot]
      simp [hc]

/-! ### Cutting texts -/

/-- The text between two byte positions, if both lie between characters. -/
def slice? (source : String) (start stop : Nat) : Option String :=
  if h : (String.Pos.Raw.mk start).IsValid source ∧ (String.Pos.Raw.mk stop).IsValid source ∧
      start ≤ stop then
    some (source.extract (source.pos _ h.1) (source.pos _ h.2.1))
  else none

theorem isValid_of_append {source : String} {cs ds : List Char} (h : source.toList = cs ++ ds) :
    (String.Pos.Raw.mk (encoded cs).length).IsValid source := by
  refine String.Pos.Raw.isValid_iff_exists_append.mpr ⟨String.ofList cs, String.ofList ds, ?_, ?_⟩
  · rw [← String.ofList_append, ← h, String.ofList_toList]
  · show _ = (⟨(bytesOf (String.ofList cs)).length⟩ : String.Pos.Raw)
    rw [bytesOf_eq, String.toList_ofList]

theorem slice?_append {source : String} {cs ds es : List Char}
    (h : source.toList = cs ++ (ds ++ es)) :
    slice? source (encoded cs).length ((encoded cs).length + (encoded ds).length) =
      some (String.ofList ds) := by
  have hstart := isValid_of_append h
  have hstop : (String.Pos.Raw.mk ((encoded cs).length + (encoded ds).length)).IsValid source := by
    rw [← List.append_assoc] at h
    have hvalid := isValid_of_append h
    rwa [encoded_append, List.length_append] at hvalid
  have hsize : ∀ cs : List Char, cs.utf8Encode.size = (encoded cs).length := by
    intro cs
    simp [List.utf8Encode, encoded]
  rw [slice?, dif_pos ⟨hstart, hstop, Nat.le_add_right _ _⟩, Option.some.injEq,
    ← String.toByteArray_inj, String.toByteArray_extract, String.toByteArray_ofList,
    ← String.utf8Encode_toList, h, List.utf8Encode_append, List.utf8Encode_append,
    ByteArray.extract_append]
  simp only [String.offset_pos, hsize, Nat.sub_self, Nat.add_sub_cancel_left]
  rw [← hsize cs, ← hsize ds, ByteArray.extract_append_eq_left rfl,
    ByteArray.extract_eq_empty_iff.mpr (Nat.min_le_right _ _), ByteArray.empty_append]

end Lox
