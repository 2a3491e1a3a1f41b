import CommentTags.Proofs.Text.Utf8

namespace CommentTags.Text.Utf8

variable {pos : Nat} {b : UInt8} {bs : List UInt8} {e : DecodeError} {s : List Char}
  {carry : List UInt8}

theorem continuation_length_le (count : Nat) (low high : UInt8) (bs : List UInt8) :
    (continuation count low high bs).length ≤ bs.length := by
  fun_induction continuation count low high bs with
  | case1 => exact Nat.zero_le _
  | case2 => exact Nat.le_refl _
  | case3 n low high b bs h ih => exact Nat.succ_le_succ ih
  | case4 => exact Nat.zero_le _

theorem continuation_append {count : Nat} {low high : UInt8} (bs rest : List UInt8)
    (h : (continuation count low high bs).length = count ∨
      (continuation count low high bs).length ≠ bs.length) :
    continuation count low high (bs ++ rest) = continuation count low high bs := by
  fun_induction continuation count low high bs with
  | case1 => exact continuation_zero _ _ _
  | case2 count _ _ hcount =>
    obtain h | h := h
    · exact absurd h.symm hcount
    · exact absurd rfl h
  | case3 n low high b bs hb ih =>
    rw [List.cons_append, continuation_cons hb, ih]
    exact h.imp Nat.succ.inj fun h hlen => h (congrArg Nat.succ hlen)
  | case4 n low high b bs hb => rw [List.cons_append, continuation, if_neg hb]

theorem head_append (h : head b bs ≠ .incomplete) (rest : List UInt8) :
    head b (bs ++ rest) = head b bs := by
  by_cases hb : b < 0x80
  · rw [head, if_pos hb, head, if_pos hb]
  · rw [head, if_neg hb] at h ⊢
    rw [head, if_neg hb]
    cases hl : lead? b with
    | none => rfl
    | some l =>
      simp only [hl] at h ⊢
      have hle := continuation_length_le l.count l.low l.high bs
      by_cases hk : (continuation l.count l.low l.high bs).length = l.count
      · rw [continuation_append bs rest (Or.inl hk)]
        simp only [hk, if_true]
      · rw [if_neg hk] at h
        by_cases hlen : (continuation l.count l.low l.high bs).length = bs.length
        · exact absurd (if_pos hlen) h
        · rw [continuation_append bs rest (Or.inr hlen), if_neg hk, if_neg hk, if_neg hlen, if_neg]
          rw [List.length_append]
          omega

theorem head_length_le :
    (∀ c more, head b bs = .char c more → more ≤ bs.length) ∧
      ∀ more fault, head b bs = .invalid more fault → more ≤ bs.length := by
  unfold head
  split
  · exact ⟨fun _ _ h => by cases h; exact Nat.zero_le _, fun _ _ h => by cases h⟩
  · split
    · exact ⟨fun _ _ h => (by cases h), fun _ _ h => by cases h; exact Nat.zero_le _⟩
    · rename_i l _
      have hle := continuation_length_le l.count l.low l.high bs
      dsimp only
      split
      · rename_i hk
        refine ⟨fun _ _ h => ?_, fun _ _ h => by cases h⟩
        cases h
        exact hk ▸ hle
      · split
        · exact ⟨fun _ _ h => (by cases h), fun _ _ h => by cases h⟩
        · refine ⟨fun _ _ h => (by cases h), fun _ _ h => ?_⟩
          cases h
          exact hle

theorem head_of_isHalfSurrogate (h : isHalfSurrogate (b :: bs) = true) :
    head b bs = .invalid 0 .invalidContinuation := by
  match bs, h with
  | [k], h =>
    simp only [isHalfSurrogate, Bool.and_eq_true, decide_eq_true_eq] at h
    obtain ⟨⟨rfl, hlow⟩, -⟩ := h
    have hk : ¬ ((0x80 : UInt8) ≤ k ∧ k ≤ 0x9F) := by
      simp only [UInt8.le_iff_toNat_le, UInt8.reduceToNat] at hlow ⊢
      omega
    have hc : continuation 2 0x80 0x9F [k] = [] := by rw [continuation, if_neg hk]
    have hl : lead? 0xED = some ⟨2, 0x80, 0x9F⟩ := rfl
    rw [head, if_neg (by decide), hl]
    dsimp only
    rw [hc]
    rfl

theorem isHalfSurrogate_append (hs : isHalfSurrogate (b :: bs) = false)
    (h : head b bs ≠ .incomplete) (rest : List UInt8) :
    isHalfSurrogate (b :: (bs ++ rest)) = false := by
  match bs, hs, h with
  | [], _, h =>
    by_cases hb : b = 0xED
    · subst hb
      exact absurd rfl h
    · match rest with
      | [] | _ :: _ :: _ => rfl
      | [_] => simp only [List.nil_append, isHalfSurrogate, hb, decide_false, Bool.false_and]
  | [_], hs, _ =>
    match rest with
    | [] => exact hs
    | _ :: _ => rfl
  | _ :: _ :: _, _, _ => rfl

@[simp] theorem decode_nil (pos : Nat) : decode pos [] = .ok ([], []) := by
  rw [decode]

theorem decode_of_char {c : Char} {more : Nat} (h : head b bs = .char c more) :
    decode pos (b :: bs) =
      (decode (pos + more + 1) (bs.drop more)).map fun r => (c :: r.1, r.2) := by
  have hs : ¬ isHalfSurrogate (b :: bs) = true := by
    intro hs
    rw [head_of_isHalfSurrogate hs] at h
    cases h
  rw [decode, if_neg hs, h]

theorem decode_of_incomplete (h : head b bs = .incomplete) :
    decode pos (b :: bs) = .ok ([], b :: bs) := by
  rw [decode, h, ite_self]

theorem decode_of_invalid {more : Nat} {fault : Fault} (hs : isHalfSurrogate (b :: bs) = false)
    (h : head b bs = .invalid more fault) :
    decode pos (b :: bs) = .error ⟨pos, b :: bs.take more, fault⟩ := by
  rw [decode, if_neg (by rw [hs]; exact Bool.false_ne_true), h]

theorem decode_of_isHalfSurrogate (hs : isHalfSurrogate (b :: bs) = true) :
    decode pos (b :: bs) = .ok ([], b :: bs) := by
  rw [decode, if_pos hs]

theorem decode_ok_of_decode_ok (pos' : Nat) {r : List Char × List UInt8}
    (h : decode pos bs = .ok r) : decode pos' bs = .ok r := by
  fun_induction decode pos bs generalizing pos' r with
  | case1 => rw [decode_nil, ← h]
  | case2 _ b bs hs => rw [decode_of_isHalfSurrogate hs, ← h]
  | case3 pos b bs hs c more hc ih =>
    rw [decode_of_char hc]
    cases hd : decode (pos + more + 1) (bs.drop more) with
    | error e => rw [hd] at h; cases h
    | ok r' => rw [ih _ hd, ← h, hd]
  | case4 _ b bs hs hc => rw [decode_of_incomplete hc, ← h]
  | case5 => cases h

theorem decode_append (h : decode pos bs = .ok (s, carry)) :
    ∃ pos', ∀ rest, decode pos (bs ++ rest) =
      (decode pos' (carry ++ rest)).map fun r => (s ++ r.1, r.2) := by
  have hnil : ∀ pos bs, decode pos bs = (decode pos bs).map fun r => ([] ++ r.1, r.2) := by
    intro pos bs
    cases decode pos bs <;> rfl
  fun_induction decode pos bs generalizing s carry with
  | case1 pos =>
    cases h
    exact ⟨pos, fun rest => hnil _ _⟩
  | case2 pos b bs hs =>
    cases h
    exact ⟨pos, fun rest => hnil _ _⟩
  | case3 pos b bs hs c more hc ih =>
    cases hd : decode (pos + more + 1) (bs.drop more) with
    | error e => rw [hd] at h; cases h
    | ok r =>
      rw [hd] at h
      cases h
      obtain ⟨pos', hrest⟩ := ih hd
      refine ⟨pos', fun rest => ?_⟩
      have hne : head b bs ≠ .incomplete := by rw [hc]; exact Head.noConfusion
      rw [List.cons_append, decode_of_char ((head_append hne rest).trans hc),
        List.drop_append_of_le_length (head_length_le.1 c more hc), hrest]
      cases decode pos' (r.2 ++ rest) <;> rfl
  | case4 pos b bs hs hc =>
    cases h
    exact ⟨pos, fun rest => hnil _ _⟩
  | case5 => cases h

/-- Bytes that are in error stay in error. -/
theorem decode_append_of_error (h : decode pos bs = .error e) (rest : List UInt8) :
    decode pos (bs ++ rest) = .error e := by
  fun_induction decode pos bs with
  | case1 => cases h
  | case2 => cases h
  | case3 pos b bs hs c more hc ih =>
    have hne : head b bs ≠ .incomplete := by rw [hc]; exact Head.noConfusion
    rw [List.cons_append, decode_of_char ((head_append hne rest).trans hc),
      List.drop_append_of_le_length (head_length_le.1 c more hc)]
    cases hd : decode (pos + more + 1) (bs.drop more) with
    | error e' =>
      rw [hd] at h
      cases h
      rw [ih hd]
      rfl
    | ok r => rw [hd] at h; cases h
  | case4 => cases h
  | case5 pos b bs hs more fault hc =>
    have hne : head b bs ≠ .incomplete := by rw [hc]; exact Head.noConfusion
    have hs' := isHalfSurrogate_append (Bool.eq_false_iff.mpr hs) hne rest
    rw [List.cons_append, decode_of_invalid hs' ((head_append hne rest).trans hc),
      List.take_append_of_le_length (head_length_le.2 more fault hc), ← h]

theorem decode_carry (h : decode pos bs = .ok (s, carry)) : decode pos carry = .ok ([], carry) := by
  obtain ⟨pos', hrest⟩ := decode_append h
  have := hrest []
  rw [List.append_nil, List.append_nil, h] at this
  cases hc : decode pos' carry with
  | error e => rw [hc] at this; cases this
  | ok r =>
    rw [hc] at this
    obtain ⟨hs, hr⟩ := Prod.mk.inj (Except.ok.inj this)
    rw [List.self_eq_append_right] at hs
    exact (decode_ok_of_decode_ok pos hc).trans (congrArg Except.ok (Prod.ext hs hr.symm))

/-- Bytes that decode to the end can be decoded in two parts. -/
theorem exists_decode_of_append {rest : List UInt8} (h : decode pos (bs ++ rest) = .ok (s, [])) :
    ∃ first kept last, decode pos bs = .ok (first, kept) ∧
      decode pos (kept ++ rest) = .ok (last, []) ∧ s = first ++ last := by
  cases hd : decode pos bs with
  | error e =>
    rw [decode_append_of_error hd] at h
    cases h
  | ok r =>
    obtain ⟨first, kept⟩ := r
    obtain ⟨pos', hrest⟩ := decode_append hd
    rw [hrest] at h
    cases hr : decode pos' (kept ++ rest) with
    | error e =>
      rw [hr] at h
      cases h
    | ok r =>
      rw [hr] at h
      obtain ⟨rfl, hnil⟩ := Prod.mk.inj (Except.ok.inj h)
      refine ⟨first, kept, r.1, rfl, ?_, rfl⟩
      exact (decode_ok_of_decode_ok pos hr).trans (congrArg Except.ok (Prod.ext rfl hnil))

theorem decode_encode (pos : Nat) (s : List Char) : decode pos (encode s) = .ok (s, []) := by
  induction s generalizing pos with
  | nil => exact decode_nil pos
  | cons c s ih =>
    obtain ⟨b, ks, hb, hc⟩ := head_encodeChar c
    have henc : encode (c :: s) = b :: (ks ++ encode s) := by
      rw [encode, List.flatMap_cons, hb]
      rfl
    rw [henc, decode_of_char (hc _), List.drop_left, ih]
    rfl

end CommentTags.Text.Utf8
