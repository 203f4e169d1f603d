import ProtoSchema.Text.Utf8

/-!
Texts and their bytes: the pieces of a text's bytes are its characters, and the pieces of any byte
sequence are made of its bytes.
-/

namespace ProtoSchema.Utf8

open List

variable {b b₁ b₂ : UInt8}

/-! ## Ranges of bytes -/

/-- The lead byte `n` announces `width` bytes, the second of them from `lo` to `hi`. -/
def Announces (n width lo hi : Nat) : Prop :=
  (width = 2 ∧ 0xC2 ≤ n ∧ n ≤ 0xDF ∧ lo = 0x80 ∧ hi = 0xBF) ∨
  (width = 3 ∧ 0xE0 ≤ n ∧ n ≤ 0xEF ∧ (n = 0xE0 ∧ lo = 0xA0 ∨ n ≠ 0xE0 ∧ lo = 0x80) ∧
    (n = 0xED ∧ hi = 0x9F ∨ n ≠ 0xED ∧ hi = 0xBF)) ∨
  (width = 4 ∧ 0xF0 ≤ n ∧ n ≤ 0xF4 ∧ (n = 0xF0 ∧ lo = 0x90 ∨ n ≠ 0xF0 ∧ lo = 0x80) ∧
    (n = 0xF4 ∧ hi = 0x8F ∨ n ≠ 0xF4 ∧ hi = 0xBF))

private theorem announces_of_lead {lo hi : UInt8} {width : Nat}
    (h : lead b = some (width, lo, hi)) :
    Announces b.toNat width lo.toNat hi.toNat := by
  unfold lead at h
  simp only [UInt8.le_iff_toNat_le, Bool.and_eq_true, decide_eq_true_eq, beq_iff_eq,
    ← UInt8.toNat_inj, UInt8.reduceToNat] at h
  unfold Announces
  repeat' split at h
  all_goals cases h <;> simp <;> omega

private theorem exists_lead (h : 0xC2 ≤ b.toNat ∧ b.toNat ≤ 0xF4) :
    ¬b < 0x80 ∧ ∃ width lo hi, lead b = some (width, lo, hi) ∧
      Announces b.toNat width lo.toNat hi.toNat := by
  have hsome : ∃ x, lead b = some x := by
    unfold lead
    simp only [UInt8.le_iff_toNat_le, Bool.and_eq_true, decide_eq_true_eq, beq_iff_eq,
      ← UInt8.toNat_inj, UInt8.reduceToNat]
    repeat' split
    all_goals first | exact ⟨_, rfl⟩ | omega
  obtain ⟨⟨width, lo, hi⟩, hlead⟩ := hsome
  refine ⟨?_, width, lo, hi, hlead, announces_of_lead hlead⟩
  simp only [UInt8.lt_iff_toNat_lt, UInt8.reduceToNat]
  omega

private theorem isContinuation_iff (b : UInt8) :
    isContinuation b = true ↔ 0x80 ≤ b.toNat ∧ b.toNat ≤ 0xBF := by
  simp [isContinuation, UInt8.le_iff_toNat_le]

private theorem in_range_iff (lo hi b : UInt8) :
    (lo ≤ b && b ≤ hi) = true ↔ lo.toNat ≤ b.toNat ∧ b.toNat ≤ hi.toNat := by
  simp [UInt8.le_iff_toNat_le]

/-! ## The first piece -/

variable {b₃ : UInt8} {n : Nat} (rest : List UInt8) (c : Char) (s : String)
  (h₁ : 0x80 ≤ b₁.toNat ∧ b₁.toNat ≤ 0xBF) (h₂ : 0x80 ≤ b₂.toNat ∧ b₂.toNat ≤ 0xBF)

private theorem front_one (h : b.toNat < 0x80) :
    front b rest = (.char (Char.ofNat b.toNat), 0) := by
  have hb : b < 0x80 := UInt8.lt_iff_toNat_lt.mpr h
  unfold front
  rw [if_pos hb]

include h₁ in
private theorem front_two (h : 0xC2 ≤ b.toNat ∧ b.toNat ≤ 0xDF) :
    front b (b₁ :: rest) = (.char (Char.ofNat (b.toNat % 32 * 64 + tail b₁)), 1) := by
  obtain ⟨hlow, width, lo, hi, hlead, ha⟩ := exists_lead (b := b) (by omega)
  unfold Announces at ha
  obtain rfl : width = 2 := by omega
  have hrange := (in_range_iff lo hi b₁).mpr (by omega)
  simp [front, hlow, hlead, hrange]

include h₁ h₂ in
private theorem front_three (h : 0xE0 ≤ b.toNat ∧ b.toNat ≤ 0xEF)
    (hleast : b.toNat = 0xE0 → 0xA0 ≤ b₁.toNat) (hmost : b.toNat = 0xED → b₁.toNat ≤ 0x9F) :
    front b (b₁ :: b₂ :: rest) =
      (.char (Char.ofNat ((b.toNat % 16 * 64 + tail b₁) * 64 + tail b₂)), 2) := by
  obtain ⟨hlow, width, lo, hi, hlead, ha⟩ := exists_lead (b := b) (by omega)
  unfold Announces at ha
  obtain rfl : width = 3 := by omega
  have hrange := (in_range_iff lo hi b₁).mpr (by omega)
  simp [front, hlow, hlead, hrange, (isContinuation_iff b₂).mpr h₂]

include h₁ h₂ in
private theorem front_four (h : 0xF0 ≤ b.toNat ∧ b.toNat ≤ 0xF4)
    (hleast : b.toNat = 0xF0 → 0x90 ≤ b₁.toNat) (hmost : b.toNat = 0xF4 → b₁.toNat ≤ 0x8F)
    (h₃ : 0x80 ≤ b₃.toNat ∧ b₃.toNat ≤ 0xBF) :
    front b (b₁ :: b₂ :: b₃ :: rest) =
      (.char (Char.ofNat (((b.toNat % 8 * 64 + tail b₁) * 64 + tail b₂) * 64 + tail b₃)), 3) := by
  obtain ⟨hlow, width, lo, hi, hlead, ha⟩ := exists_lead (b := b) (by omega)
  unfold Announces at ha
  obtain rfl : width = 4 := by omega
  have hrange := (in_range_iff lo hi b₁).mpr (by omega)
  simp [front, hlow, hlead, hrange, (isContinuation_iff b₂).mpr h₂, (isContinuation_iff b₃).mpr h₃]

/-! ## Characters as bytes -/

private theorem toNat_valid : c.toNat < 0xD800 ∨ 0xDFFF < c.toNat ∧ c.toNat < 0x110000 :=
  c.valid

private theorem exists_byte (h : n < 256) : ∃ b, UInt8.ofNat n = b ∧ b.toNat = n :=
  ⟨_, rfl, by simp [Nat.mod_eq_of_lt h]⟩

/-- The first piece of a character's bytes is the character, whatever follows. -/
theorem exists_front_encode :
    ∃ b bs, String.utf8EncodeChar c = b :: bs ∧
      ∀ rest, front b (bs ++ rest) = (.char c, bs.length) := by
  have hc := toNat_valid c
  unfold String.utf8EncodeChar
  simp only [Char.toNat_val]
  split
  · obtain ⟨b, hb, hbn⟩ := exists_byte (n := c.toNat) (by omega)
    refine ⟨b, [], by rw [hb], fun rest => ?_⟩
    rw [nil_append, front_one _ (by omega), hbn, Char.ofNat_toNat]
    rfl
  · split
    · obtain ⟨b, hb, hbn⟩ := exists_byte (n := c.toNat / 64 % 32 + 192) (by omega)
      obtain ⟨b₁, hb₁, hbn₁⟩ := exists_byte (n := c.toNat % 64 + 128) (by omega)
      have hchar : b.toNat % 32 * 64 + tail b₁ = c.toNat := by unfold tail; omega
      refine ⟨b, [b₁], by rw [hb, hb₁], fun rest => ?_⟩
      rw [singleton_append, front_two _ (by omega) (by omega), hchar, Char.ofNat_toNat]
      rfl
    · split
      · obtain ⟨b, hb, hbn⟩ := exists_byte (n := c.toNat / 4096 % 16 + 224) (by omega)
        obtain ⟨b₁, hb₁, hbn₁⟩ := exists_byte (n := c.toNat / 64 % 64 + 128) (by omega)
        obtain ⟨b₂, hb₂, hbn₂⟩ := exists_byte (n := c.toNat % 64 + 128) (by omega)
        have hchar : (b.toNat % 16 * 64 + tail b₁) * 64 + tail b₂ = c.toNat := by
          unfold tail; omega
        refine ⟨b, [b₁, b₂], by rw [hb, hb₁, hb₂], fun rest => ?_⟩
        rw [cons_append, singleton_append, front_three _ (by omega) (by omega) (by omega)
          (by omega) (by omega), hchar, Char.ofNat_toNat]
        rfl
      · obtain ⟨b, hb, hbn⟩ := exists_byte (n := c.toNat / 262144 % 8 + 240) (by omega)
        obtain ⟨b₁, hb₁, hbn₁⟩ := exists_byte (n := c.toNat / 4096 % 64 + 128) (by omega)
        obtain ⟨b₂, hb₂, hbn₂⟩ := exists_byte (n := c.toNat / 64 % 64 + 128) (by omega)
        obtain ⟨b₃, hb₃, hbn₃⟩ := exists_byte (n := c.toNat % 64 + 128) (by omega)
        have hchar : ((b.toNat % 8 * 64 + tail b₁) * 64 + tail b₂) * 64 + tail b₃ = c.toNat := by
          unfold tail; omega
        refine ⟨b, [b₁, b₂, b₃], by rw [hb, hb₁, hb₂, hb₃], fun rest => ?_⟩
        rw [cons_append, cons_append, singleton_append, front_four _ (by omega)
          (by omega) (by omega) (by omega) (by omega) (by omega), hchar, Char.ofNat_toNat]
        rfl

theorem pieces_encode (cs : List Char) : pieces (encode cs) = cs.map Piece.char := by
  induction cs with
  | nil => rw [encode, flatMap_nil, pieces, map_nil]
  | cons c cs ih =>
    obtain ⟨b, bs, hbytes, hfront⟩ := exists_front_encode c
    have hencode : encode (c :: cs) = b :: (bs ++ encode cs) := by
      rw [encode, flatMap_cons, hbytes]
      rfl
    rw [hencode, pieces, hfront, drop_left, ih, map_cons]

theorem string?_bytes : string? (bytes s) = some s := by
  have hchars : ∀ cs : List Char, (cs.map Piece.char).mapM Piece.char? = some cs := by
    intro cs
    induction cs with
    | nil => rfl
    | cons c cs ih => simp [mapM_cons, ih, Piece.char?]
  rw [string?, decode?, bytes, pieces_encode, hchars, Option.map_some, String.ofList_toList]

theorem lossy_bytes : lossy (bytes s) = s := by
  rw [lossy, bytes, pieces_encode, map_map]
  simp [Function.comp_def, Piece.char?]

/-! ## Bytes as pieces -/

def Piece.bytes : Piece → List UInt8
  | .char c => String.utf8EncodeChar c
  | .malformed bs => bs

theorem toNat_ofNat (h : n < 0xD800 ∨ 0xDFFF < n ∧ n < 0x110000) : (Char.ofNat n).toNat = n := by
  have hvalid : n.isValidChar := h
  rw [Char.ofNat, dif_pos hvalid]
  rfl

private theorem eq_ofNat_of_toNat (h : n = b.toNat) : UInt8.ofNat n = b := by
  rw [h, UInt8.ofNat_toNat]

private theorem encode_one (h : b.toNat < 0x80) :
    String.utf8EncodeChar (Char.ofNat b.toNat) = [b] := by
  have hn : (Char.ofNat b.toNat).toNat = b.toNat := toNat_ofNat (by omega)
  unfold String.utf8EncodeChar
  simp only [Char.toNat_val, hn]
  rw [if_pos (by omega), UInt8.ofNat_toNat]

include h₁ in
private theorem encode_two (h : 0xC2 ≤ b.toNat ∧ b.toNat ≤ 0xDF) :
    String.utf8EncodeChar (Char.ofNat (b.toNat % 32 * 64 + tail b₁)) = [b, b₁] := by
  unfold tail
  generalize hv : b.toNat % 32 * 64 + b₁.toNat % 64 = v
  have hn : (Char.ofNat v).toNat = v := toNat_ofNat (by omega)
  unfold String.utf8EncodeChar
  simp only [Char.toNat_val, hn]
  rw [if_neg (by omega), if_pos (by omega), eq_ofNat_of_toNat (b := b) (by omega),
    eq_ofNat_of_toNat (b := b₁) (by omega)]

include h₁ h₂ in
private theorem encode_three (h : 0xE0 ≤ b.toNat ∧ b.toNat ≤ 0xEF)
    (hleast : b.toNat = 0xE0 → 0xA0 ≤ b₁.toNat) (hmost : b.toNat = 0xED → b₁.toNat ≤ 0x9F) :
    String.utf8EncodeChar (Char.ofNat ((b.toNat % 16 * 64 + tail b₁) * 64 + tail b₂)) =
      [b, b₁, b₂] := by
  unfold tail
  generalize hv : (b.toNat % 16 * 64 + b₁.toNat % 64) * 64 + b₂.toNat % 64 = v
  have hn : (Char.ofNat v).toNat = v := toNat_ofNat (by omega)
  unfold String.utf8EncodeChar
  simp only [Char.toNat_val, hn]
  rw [if_neg (by omega), if_neg (by omega), if_pos (by omega),
    eq_ofNat_of_toNat (b := b) (by omega), eq_ofNat_of_toNat (b := b₁) (by omega),
    eq_ofNat_of_toNat (b := b₂) (by omega)]

include h₁ h₂ in
private theorem encode_four (h : 0xF0 ≤ b.toNat ∧ b.toNat ≤ 0xF4)
    (hleast : b.toNat = 0xF0 → 0x90 ≤ b₁.toNat) (hmost : b.toNat = 0xF4 → b₁.toNat ≤ 0x8F)
    (h₃ : 0x80 ≤ b₃.toNat ∧ b₃.toNat ≤ 0xBF) :
    String.utf8EncodeChar
        (Char.ofNat (((b.toNat % 8 * 64 + tail b₁) * 64 + tail b₂) * 64 + tail b₃)) =
      [b, b₁, b₂, b₃] := by
  unfold tail
  generalize hv : ((b.toNat % 8 * 64 + b₁.toNat % 64) * 64 + b₂.toNat % 64) * 64 + b₃.toNat % 64 = v
  have hn : (Char.ofNat v).toNat = v := toNat_ofNat (by omega)
  unfold String.utf8EncodeChar
  simp only [Char.toNat_val, hn]
  rw [if_neg (by omega), if_neg (by omega), if_neg (by omega),
    eq_ofNat_of_toNat (b := b) (by omega), eq_ofNat_of_toNat (b := b₁) (by omega),
    eq_ofNat_of_toNat (b := b₂) (by omega), eq_ofNat_of_toNat (b := b₃) (by omega)]

/-- The first piece is made of the bytes that it takes. -/
theorem bytes_front (b : UInt8) (rest : List UInt8) :
    (front b rest).1.bytes = b :: rest.take (front b rest).2 := by
  unfold front
  split
  · next hb =>
    rw [UInt8.lt_iff_toNat_lt] at hb
    exact encode_one hb
  · split
    · next width lo hi b₁ rest hlead =>
      have ha := announces_of_lead hlead
      unfold Announces at ha
      split
      · next hrange =>
        rw [in_range_iff] at hrange
        split
        · next hwidth => exact encode_two (by omega) (by omega)
        · next hwidth =>
          split
          · next b₂ rest =>
            split
            · next hcont =>
              rw [isContinuation_iff] at hcont
              split
              · next hthree => exact encode_three (by omega) hcont (by omega) (by omega) (by omega)
              · next hthree =>
                split
                · next b₃ rest =>
                  split
                  · next hcont₃ =>
                    rw [isContinuation_iff] at hcont₃
                    exact encode_four (by omega) hcont (by omega) (by omega) (by omega) hcont₃
                  · rfl
                · rfl
            · rfl
          · rfl
      · rfl
    · rfl

/-- The pieces of a byte sequence are made of its bytes. -/
theorem flatMap_bytes_pieces (bs : List UInt8) : (pieces bs).flatMap Piece.bytes = bs := by
  fun_induction pieces bs with
  | case1 => rfl
  | case2 b rest ih =>
    rw [flatMap_cons, ih, bytes_front, cons_append, take_append_drop]

end ProtoSchema.Utf8
