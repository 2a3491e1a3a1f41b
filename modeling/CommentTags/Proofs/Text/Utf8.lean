import CommentTags.Text.Utf8

namespace CommentTags.Text.Utf8

def encode (s : List Char) : List UInt8 :=
  s.flatMap String.utf8EncodeChar

variable {pos : Nat} {b : UInt8} {bs : List UInt8}

theorem head_of_lead {l : Lead} (ks rest : List UInt8) (hb : ¬ b < 0x80) (hl : lead? b = some l)
    (hk : continuation l.count l.low l.high (ks ++ rest) = ks) (hlen : ks.length = l.count) :
    head b (ks ++ rest) = .char (.ofNat (codePoint b ks)) l.count := by
  rw [head, if_neg hb, hl]
  simp only [hk, hlen, if_true]

theorem continuation_cons {n : Nat} {low high k : UInt8} (h : low ≤ k ∧ k ≤ high)
    (rest : List UInt8) :
    continuation (n + 1) low high (k :: rest) = k :: continuation n 0x80 0xBF rest := by
  rw [continuation, if_pos h]

theorem continuation_zero (low high : UInt8) (rest : List UInt8) :
    continuation 0 low high rest = [] := by
  rw [continuation]

theorem toNat_ofNat_of_lt {n : Nat} (h : n < 256) : (UInt8.ofNat n).toNat = n := by
  rw [UInt8.toNat_ofNat']
  omega

theorem not_lt_of_le_toNat (h : 0x80 ≤ b.toNat) : ¬ b < 0x80 := by
  simp only [UInt8.lt_iff_toNat_lt, UInt8.reduceToNat]
  omega

theorem continues_of_toNat_eq {k : UInt8} {n : Nat} (h : k.toNat = n % 0x40 + 0x80) :
    (0x80 : UInt8) ≤ k ∧ k ≤ 0xBF := by
  simp only [UInt8.le_iff_toNat_le, UInt8.reduceToNat]
  omega

theorem exists_lead?_three {v : Nat} {j : UInt8} (h1 : 0x800 ≤ v)
    (h2 : v < 0xD800 ∨ 0xDFFF < v ∧ v < 0x10000) (hb : b.toNat = v / 4096 % 0x10 + 0xe0)
    (hj : j.toNat = v / 64 % 0x40 + 0x80) :
    ∃ low high, lead? b = some ⟨2, low, high⟩ ∧ low ≤ j ∧ j ≤ high := by
  unfold lead?
  simp only [UInt8.le_iff_toNat_le, ← UInt8.toNat_inj, UInt8.reduceToNat]
  rw [if_neg (by omega)]
  split
  · refine ⟨_, _, rfl, ?_⟩
    simp only [UInt8.reduceToNat]
    omega
  · split
    · refine ⟨_, _, rfl, ?_⟩
      simp only [UInt8.reduceToNat]
      omega
    · rw [if_pos (by omega)]
      refine ⟨_, _, rfl, ?_⟩
      simp only [UInt8.reduceToNat]
      omega

theorem exists_lead?_four {v : Nat} {i : UInt8} (h1 : 0x10000 ≤ v) (h2 : v < 0x110000)
    (hb : b.toNat = v / 262144 % 0x08 + 0xf0) (hi : i.toNat = v / 4096 % 0x40 + 0x80) :
    ∃ low high, lead? b = some ⟨3, low, high⟩ ∧ low ≤ i ∧ i ≤ high := by
  unfold lead?
  simp only [UInt8.le_iff_toNat_le, ← UInt8.toNat_inj, UInt8.reduceToNat]
  rw [if_neg (by omega), if_neg (by omega), if_neg (by omega), if_neg (by omega)]
  split
  · refine ⟨_, _, rfl, ?_⟩
    simp only [UInt8.reduceToNat]
    omega
  · split
    · refine ⟨_, _, rfl, ?_⟩
      simp only [UInt8.reduceToNat]
      omega
    · rw [if_pos (by omega)]
      refine ⟨_, _, rfl, ?_⟩
      simp only [UInt8.reduceToNat]
      omega

theorem head_one {v : Nat} (h : v < 0x80) (rest : List UInt8) :
    head (.ofNat v) rest = .char (.ofNat v) 0 := by
  have hb := toNat_ofNat_of_lt (n := v) (by omega)
  have hlt : UInt8.ofNat v < 0x80 := by
    simp only [UInt8.lt_iff_toNat_lt, hb, UInt8.reduceToNat, h]
  rw [head, if_pos hlt, hb]

theorem head_two {v : Nat} (h1 : 0x80 ≤ v) (h2 : v < 0x800) (rest : List UInt8) :
    head (.ofNat (v / 64 % 0x20 + 0xc0)) (.ofNat (v % 0x40 + 0x80) :: rest) =
      .char (.ofNat v) 1 := by
  have hb := toNat_ofNat_of_lt (n := v / 64 % 0x20 + 0xc0) (by omega)
  have hk := toNat_ofNat_of_lt (n := v % 0x40 + 0x80) (by omega)
  generalize UInt8.ofNat (v / 64 % 0x20 + 0xc0) = b at *
  generalize UInt8.ofNat (v % 0x40 + 0x80) = k at *
  have hl : lead? b = some ⟨1, 0x80, 0xBF⟩ := by
    rw [lead?, if_pos]
    simp only [UInt8.le_iff_toNat_le, UInt8.reduceToNat]
    omega
  have hp : codePoint b [k] = v := by
    simp only [codePoint, List.foldl, hb, hk, List.length, Nat.reduceAdd, Nat.reduceShiftRight]
    omega
  have := head_of_lead [k] rest (not_lt_of_le_toNat (by omega)) hl
    (by rw [List.singleton_append, continuation_cons (continues_of_toNat_eq hk),
      continuation_zero]) rfl
  rwa [hp] at this

theorem head_three {v : Nat} (h1 : 0x800 ≤ v) (h2 : v < 0xD800 ∨ 0xDFFF < v ∧ v < 0x10000)
    (rest : List UInt8) :
    head (.ofNat (v / 4096 % 0x10 + 0xe0))
        (.ofNat (v / 64 % 0x40 + 0x80) :: .ofNat (v % 0x40 + 0x80) :: rest) =
      .char (.ofNat v) 2 := by
  have hb := toNat_ofNat_of_lt (n := v / 4096 % 0x10 + 0xe0) (by omega)
  have hj := toNat_ofNat_of_lt (n := v / 64 % 0x40 + 0x80) (by omega)
  have hk := toNat_ofNat_of_lt (n := v % 0x40 + 0x80) (by omega)
  generalize UInt8.ofNat (v / 4096 % 0x10 + 0xe0) = b at *
  generalize UInt8.ofNat (v / 64 % 0x40 + 0x80) = j at *
  generalize UInt8.ofNat (v % 0x40 + 0x80) = k at *
  obtain ⟨low, high, hl, hc⟩ := exists_lead?_three h1 h2 hb hj
  have hp : codePoint b [j, k] = v := by
    simp only [codePoint, List.foldl, hb, hj, hk, List.length, Nat.reduceAdd, Nat.reduceShiftRight]
    omega
  have := head_of_lead [j, k] rest (not_lt_of_le_toNat (by omega)) hl
    (by rw [List.cons_append, List.singleton_append, continuation_cons hc,
      continuation_cons (continues_of_toNat_eq hk), continuation_zero]) rfl
  rwa [hp] at this

theorem head_four {v : Nat} (h1 : 0x10000 ≤ v) (h2 : v < 0x110000) (rest : List UInt8) :
    head (.ofNat (v / 262144 % 0x08 + 0xf0)) (.ofNat (v / 4096 % 0x40 + 0x80) ::
        .ofNat (v / 64 % 0x40 + 0x80) :: .ofNat (v % 0x40 + 0x80) :: rest) =
      .char (.ofNat v) 3 := by
  have hb := toNat_ofNat_of_lt (n := v / 262144 % 0x08 + 0xf0) (by omega)
  have hi := toNat_ofNat_of_lt (n := v / 4096 % 0x40 + 0x80) (by omega)
  have hj := toNat_ofNat_of_lt (n := v / 64 % 0x40 + 0x80) (by omega)
  have hk := toNat_ofNat_of_lt (n := v % 0x40 + 0x80) (by omega)
  generalize UInt8.ofNat (v / 262144 % 0x08 + 0xf0) = b at *
  generalize UInt8.ofNat (v / 4096 % 0x40 + 0x80) = i at *
  generalize UInt8.ofNat (v / 64 % 0x40 + 0x80) = j at *
  generalize UInt8.ofNat (v % 0x40 + 0x80) = k at *
  obtain ⟨low, high, hl, hc⟩ := exists_lead?_four h1 h2 hb hi
  have hp : codePoint b [i, j, k] = v := by
    simp only [codePoint, List.foldl, hb, hi, hj, hk, List.length, Nat.reduceAdd,
      Nat.reduceShiftRight]
    omega
  have := head_of_lead [i, j, k] rest (not_lt_of_le_toNat (by omega)) hl
    (by rw [List.cons_append, List.cons_append, List.singleton_append, continuation_cons hc,
      continuation_cons (continues_of_toNat_eq hj), continuation_cons (continues_of_toNat_eq hk),
      continuation_zero]) rfl
  rwa [hp] at this

theorem head_encodeChar (c : Char) :
    ∃ b ks, String.utf8EncodeChar c = b :: ks ∧
      ∀ rest, head b (ks ++ rest) = .char c ks.length := by
  have hc : c.toNat < 0xD800 ∨ 0xDFFF < c.toNat ∧ c.toNat < 0x110000 := c.valid
  have hv : c.val.toNat = c.toNat := rfl
  have hof : Char.ofNat c.toNat = c := Char.ofNat_toNat c
  unfold String.utf8EncodeChar
  simp only [hv]
  split
  · refine ⟨_, _, rfl, fun rest => ?_⟩
    rw [List.nil_append, head_one (by omega), hof, List.length_nil]
  · split
    · refine ⟨_, _, rfl, fun rest => ?_⟩
      rw [List.singleton_append, head_two (by omega) (by omega), hof, List.length_singleton]
    · split
      · refine ⟨_, _, rfl, fun rest => ?_⟩
        rw [List.cons_append, List.singleton_append, head_three (by omega) (by omega), hof]
        rfl
      · refine ⟨_, _, rfl, fun rest => ?_⟩
        rw [List.cons_append, List.cons_append, List.singleton_append,
          head_four (by omega) (by omega), hof]
        rfl

end CommentTags.Text.Utf8
