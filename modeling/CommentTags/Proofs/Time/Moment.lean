import CommentTags.Time.Moment

namespace CommentTags.Time

variable {t seconds offset : Int}

theorem splitCycle_le {day : Nat} (h : day < 146097) : (splitCycle day).1 ≤ 399 := by
  simp only [splitCycle]
  omega

theorem splitCycle_eq_last_iff {day : Nat} (h : day < 146097) :
    (splitCycle day).1 = 399 ↔ 145731 ≤ day := by
  simp only [splitCycle]
  omega

theorem yearAt_eq (t : Int) :
    yearAt t = (t / 86400 + epochDay) / 146097 * 400 +
      (splitCycle ((t / 86400 + epochDay) % 146097).toNat).1 + 1 := rfl

theorem inRange_iff : InRange t ↔ -62135596800 ≤ t ∧ t < 253402300800 := by
  have hday : ((t / 86400 + epochDay) % 146097).toNat < 146097 := by omega
  have hle := splitCycle_le hday
  have hlast := splitCycle_eq_last_iff hday
  rw [InRange, yearAt_eq]
  simp only [epochDay] at *
  omega

structure Representable (seconds offset : Int) : Prop where
  offset_lt : -1440 < offset ∧ offset < 1440
  utc_inRange : InRange seconds
  local_inRange : InRange (seconds + 60 * offset)

theorem representable_iff : Representable seconds offset ↔
    (-1440 < offset ∧ offset < 1440) ∧ InRange seconds ∧ InRange (seconds + 60 * offset) :=
  ⟨fun ⟨h1, h2, h3⟩ => ⟨h1, h2, h3⟩, fun ⟨h1, h2, h3⟩ => ⟨h1, h2, h3⟩⟩

instance (seconds offset : Int) : Decidable (Representable seconds offset) :=
  decidable_of_iff _ representable_iff.symm

namespace Moment

theorem representable (m : Moment) : Representable m.seconds m.offset :=
  ⟨m.offset_lt, m.utc_inRange, m.local_inRange⟩

theorem make_of_representable (h : Representable seconds offset) :
    make seconds offset =
      .ok ⟨seconds, offset, h.offset_lt, h.utc_inRange, h.local_inRange⟩ := by
  have hday := h.offset_lt
  have hseconds := inRange_iff.mp h.utc_inRange
  have hyear := h.utc_inRange
  rw [InRange] at hyear
  rw [make, if_neg (by omega), dif_pos h.offset_lt, if_neg (by omega), if_neg (by omega),
    dif_pos h.utc_inRange, dif_pos h.local_inRange]

theorem make_eq_ok {m : Moment} (h : make seconds offset = .ok m) :
    m.seconds = seconds ∧ m.offset = offset := by
  unfold make at h
  split at h
  · cases h
  · split at h
    · split at h
      · cases h
      · split at h
        · cases h
        · split at h
          · split at h
            · cases h
              exact ⟨rfl, rfl⟩
            · cases h
          · cases h
    · cases h

theorem exists_make_eq_ok_iff :
    (∃ m, make seconds offset = .ok m) ↔ Representable seconds offset := by
  constructor
  · rintro ⟨m, h⟩
    obtain ⟨rfl, rfl⟩ := make_eq_ok h
    exact m.representable
  · exact fun h => ⟨_, make_of_representable h⟩

end Moment

end CommentTags.Time
