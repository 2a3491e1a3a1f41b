import CommentTags.Proofs.Text.Decode

namespace CommentTags.Text.Utf8

variable {pos : Nat} {b : UInt8} {bs : List UInt8} {s w : List Char} {carry : List UInt8}

theorem lead?_cases {l : Lead} (h : lead? b = some l) :
    (l.count = 1 ∧ 0xC2 ≤ b.toNat ∧ b.toNat ≤ 0xDF ∧ l.low.toNat = 0x80 ∧ l.high.toNat = 0xBF) ∨
    (l.count = 2 ∧ 0xE0 ≤ b.toNat ∧ b.toNat ≤ 0xEF ∧ 0x80 ≤ l.low.toNat ∧ l.high.toNat ≤ 0xBF ∧
      (b.toNat = 0xE0 → 0xA0 ≤ l.low.toNat) ∧ (b.toNat = 0xED → l.high.toNat ≤ 0x9F)) ∨
    (l.count = 3 ∧ 0xF0 ≤ b.toNat ∧ b.toNat ≤ 0xF4 ∧ 0x80 ≤ l.low.toNat ∧ l.high.toNat ≤ 0xBF ∧
      (b.toNat = 0xF0 → 0x90 ≤ l.low.toNat) ∧ (b.toNat = 0xF4 → l.high.toNat ≤ 0x8F)) := by
  unfold lead? at h
  simp only [UInt8.le_iff_toNat_le, ← UInt8.toNat_inj, UInt8.reduceToNat] at h
  repeat' split at h
  all_goals cases h
  all_goals
    simp only [UInt8.reduceToNat]
    grind

theorem exists_continuation_cons {n : Nat} {low high : UInt8}
    (h : (continuation (n + 1) low high bs).length = n + 1) :
    ∃ k rest, bs = k :: rest ∧ (low.toNat ≤ k.toNat ∧ k.toNat ≤ high.toNat) ∧
      continuation (n + 1) low high bs = k :: continuation n 0x80 0xBF rest ∧
      (continuation n 0x80 0xBF rest).length = n := by
  cases bs with
  | nil => simp [continuation] at h
  | cons k rest =>
    by_cases hk : low ≤ k ∧ k ≤ high
    · rw [continuation_cons hk] at h
      exact ⟨k, rest, rfl, hk, continuation_cons hk rest, Nat.succ.inj h⟩
    · rw [continuation, if_neg hk] at h
      cases h

theorem toNat_ofNat_of_isValidChar {v : Nat} (h : v.isValidChar) :
    (Char.ofNat v).val.toNat = v := by
  rw [Char.ofNat, dif_pos h]
  rfl

theorem ofNat_eq_of_toNat_eq {n : Nat} (h : b.toNat = n) : UInt8.ofNat n = b := by
  rw [← h, UInt8.ofNat_toNat]

theorem encodeChar_one (hb : b.toNat < 0x80) : String.utf8EncodeChar (.ofNat b.toNat) = [b] := by
  have hv := toNat_ofNat_of_isValidChar (v := b.toNat) (Or.inl (by omega))
  unfold String.utf8EncodeChar
  simp only [hv]
  rw [if_pos (by omega), UInt8.ofNat_toNat]

theorem encodeChar_two {k : UInt8} (hb : 0xC2 ≤ b.toNat ∧ b.toNat ≤ 0xDF)
    (hk : 0x80 ≤ k.toNat ∧ k.toNat ≤ 0xBF) :
    String.utf8EncodeChar (.ofNat (codePoint b [k])) = [b, k] := by
  have hp : codePoint b [k] = b.toNat % 32 * 64 + k.toNat % 64 := rfl
  have hv := toNat_ofNat_of_isValidChar (v := codePoint b [k]) (Or.inl (by omega))
  unfold String.utf8EncodeChar
  simp only [hv]
  rw [if_neg (by omega), if_pos (by omega), ofNat_eq_of_toNat_eq (b := b) (by omega),
    ofNat_eq_of_toNat_eq (b := k) (by omega)]

theorem encodeChar_three {j k : UInt8} (hb : 0xE0 ≤ b.toNat ∧ b.toNat ≤ 0xEF)
    (hj : 0x80 ≤ j.toNat ∧ j.toNat ≤ 0xBF) (hk : 0x80 ≤ k.toNat ∧ k.toNat ≤ 0xBF)
    (hlow : b.toNat = 0xE0 → 0xA0 ≤ j.toNat) (hhigh : b.toNat = 0xED → j.toNat ≤ 0x9F) :
    String.utf8EncodeChar (.ofNat (codePoint b [j, k])) = [b, j, k] := by
  have hp : codePoint b [j, k] = (b.toNat % 16 * 64 + j.toNat % 64) * 64 + k.toNat % 64 := by
    simp only [codePoint, List.foldl, List.length, Nat.reduceAdd, Nat.reduceShiftRight]
  have hvalid : (codePoint b [j, k]).isValidChar := by
    unfold Nat.isValidChar
    omega
  have hv := toNat_ofNat_of_isValidChar hvalid
  unfold String.utf8EncodeChar
  simp only [hv]
  rw [if_neg (by omega), if_neg (by omega), if_pos (by omega),
    ofNat_eq_of_toNat_eq (b := b) (by omega), ofNat_eq_of_toNat_eq (b := j) (by omega),
    ofNat_eq_of_toNat_eq (b := k) (by omega)]

theorem encodeChar_four {i j k : UInt8} (hb : 0xF0 ≤ b.toNat ∧ b.toNat ≤ 0xF4)
    (hi : 0x80 ≤ i.toNat ∧ i.toNat ≤ 0xBF) (hj : 0x80 ≤ j.toNat ∧ j.toNat ≤ 0xBF)
    (hk : 0x80 ≤ k.toNat ∧ k.toNat ≤ 0xBF) (hlow : b.toNat = 0xF0 → 0x90 ≤ i.toNat)
    (hhigh : b.toNat = 0xF4 → i.toNat ≤ 0x8F) :
    String.utf8EncodeChar (.ofNat (codePoint b [i, j, k])) = [b, i, j, k] := by
  have hp : codePoint b [i, j, k] =
      ((b.toNat % 8 * 64 + i.toNat % 64) * 64 + j.toNat % 64) * 64 + k.toNat % 64 := by
    simp only [codePoint, List.foldl, List.length, Nat.reduceAdd, Nat.reduceShiftRight]
  have hvalid : (codePoint b [i, j, k]).isValidChar := by
    unfold Nat.isValidChar
    omega
  have hv := toNat_ofNat_of_isValidChar hvalid
  unfold String.utf8EncodeChar
  simp only [hv]
  rw [if_neg (by omega), if_neg (by omega), if_neg (by omega),
    ofNat_eq_of_toNat_eq (b := b) (by omega), ofNat_eq_of_toNat_eq (b := i) (by omega),
    ofNat_eq_of_toNat_eq (b := j) (by omega), ofNat_eq_of_toNat_eq (b := k) (by omega)]

theorem encodeChar_of_lead {l : Lead} (hl : lead? b = some l)
    (h : (continuation l.count l.low l.high bs).length = l.count) :
    String.utf8EncodeChar (.ofNat (codePoint b (continuation l.count l.low l.high bs))) ++
      bs.drop l.count = b :: bs := by
  have hcases := lead?_cases hl
  obtain ⟨count, low, high⟩ := l
  dsimp only at h hcases ⊢
  obtain ⟨rfl, hb, hb', hlow, hhigh⟩ | ⟨rfl, hb, hb', hlow, hhigh, hlow', hhigh'⟩ |
    ⟨rfl, hb, hb', hlow, hhigh, hlow', hhigh'⟩ := hcases
  · obtain ⟨k, rest, rfl, hk, hc, -⟩ := exists_continuation_cons h
    rw [hc, continuation_zero, encodeChar_two ⟨hb, hb'⟩ (by omega)]
    rfl
  · obtain ⟨j, rest, rfl, hj, hc, h⟩ := exists_continuation_cons h
    obtain ⟨k, rest, rfl, hk, hc', -⟩ := exists_continuation_cons h
    simp only [UInt8.reduceToNat] at hk
    rw [hc, hc', continuation_zero, encodeChar_three ⟨hb, hb'⟩ (by omega) hk
      (fun h => Nat.le_trans (hlow' h) hj.1) fun h => Nat.le_trans hj.2 (hhigh' h)]
    rfl
  · obtain ⟨i, rest, rfl, hi, hc, h⟩ := exists_continuation_cons h
    obtain ⟨j, rest, rfl, hj, hc', h⟩ := exists_continuation_cons h
    obtain ⟨k, rest, rfl, hk, hc'', -⟩ := exists_continuation_cons h
    simp only [UInt8.reduceToNat] at hj hk
    rw [hc, hc', hc'', continuation_zero, encodeChar_four ⟨hb, hb'⟩ (by omega) hj hk
      (fun h => Nat.le_trans (hlow' h) hi.1) fun h => Nat.le_trans hi.2 (hhigh' h)]
    rfl

theorem encodeChar_of_head {c : Char} {more : Nat} (h : head b bs = .char c more) :
    String.utf8EncodeChar c ++ bs.drop more = b :: bs := by
  unfold head at h
  split at h
  · rename_i hb
    cases h
    rw [encodeChar_one hb]
    rfl
  · split at h
    · cases h
    · rename_i l hl
      dsimp only at h
      split at h
      · rename_i hlen
        cases h
        exact encodeChar_of_lead hl hlen
      · split at h <;> cases h

def leadingText : List UInt8 → List Char
  | [] => []
  | b :: bs =>
    match head b bs with
    | .char c more => c :: leadingText (bs.drop more)
    | _ => []
termination_by bs => bs.length
decreasing_by simp only [List.length_drop, List.length_cons]; omega

theorem encode_cons (c : Char) (s : List Char) :
    encode (c :: s) = String.utf8EncodeChar c ++ encode s :=
  List.flatMap_cons

theorem encode_append (s w : List Char) : encode (s ++ w) = encode s ++ encode w :=
  List.flatMap_append

theorem encode_leadingText_begins (bs : List UInt8) : encode (leadingText bs) <+: bs := by
  fun_induction leadingText bs with
  | case1 => exact List.prefix_refl _
  | case2 b bs c more hc ih =>
    rw [encode_cons, ← encodeChar_of_head hc]
    exact (List.prefix_append_right_inj _).mpr ih
  | case3 => exact List.nil_prefix

theorem leadingText_encode_append (s : List Char) (bs : List UInt8) :
    leadingText (encode s ++ bs) = s ++ leadingText bs := by
  induction s with
  | nil => rfl
  | cons c s ih =>
    obtain ⟨b, ks, hb, hc⟩ := head_encodeChar c
    rw [encode_cons, hb, List.append_assoc, List.cons_append, leadingText, hc]
    dsimp only
    rw [List.drop_left, ih]
    rfl

theorem prefix_leadingText (h : encode w <+: bs) : w <+: leadingText bs := by
  obtain ⟨rest, rfl⟩ := h
  rw [leadingText_encode_append]
  exact List.prefix_append _ _

theorem leadingText_encode (s : List Char) : leadingText (encode s) = s := by
  have h := leadingText_encode_append s []
  rwa [List.append_nil, leadingText, List.append_nil] at h

/-- The text in the longest beginning of a byte string that is UTF-8. -/
structure LongestText (bytes : List UInt8) (s : List Char) : Prop where
  begins : encode s <+: bytes
  longest : ∀ w, encode w <+: bytes → (encode w).length ≤ (encode s).length

theorem longestText_iff {bytes : List UInt8} : LongestText bytes s ↔ s = leadingText bytes := by
  have hbegins : ∀ w, encode w <+: bytes → encode w <+: encode (leadingText bytes) := by
    intro w hw
    obtain ⟨rest, hrest⟩ := prefix_leadingText hw
    exact ⟨encode rest, by rw [← encode_append, hrest]⟩
  constructor
  · intro h
    have hle := h.longest _ (encode_leadingText_begins bytes)
    have heq := (hbegins s h.begins).eq_of_length_le hle
    rw [← leadingText_encode s, heq, leadingText_encode]
  · rintro rfl
    exact ⟨encode_leadingText_begins bytes, fun w hw => (hbegins w hw).length_le⟩

theorem eq_encode_append_of_decode (h : decode pos bs = .ok (s, carry)) :
    bs = encode s ++ carry := by
  fun_induction decode pos bs generalizing s carry with
  | case1 =>
    cases h
    rfl
  | case2 =>
    cases h
    rfl
  | case3 pos b bs hs c more hc ih =>
    cases hd : decode (pos + more + 1) (bs.drop more) with
    | error e => rw [hd] at h; cases h
    | ok r =>
      rw [hd] at h
      cases h
      rw [encode_cons, List.append_assoc, ← ih hd, encodeChar_of_head hc]
  | case4 =>
    cases h
    rfl
  | case5 => cases h

end CommentTags.Text.Utf8
