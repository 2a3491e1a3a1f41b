import CommentTags.Git.Repository
import CommentTags.Proofs.Text.Cut
import CommentTags.Proofs.Text.Valid
import Mathlib.Data.List.Forall2

namespace CommentTags

namespace Text.Utf8

theorem newline_not_mem_encodeChar {c : Char} (h : c ≠ '\n') : 10 ∉ String.utf8EncodeChar c := by
  have hc : c.val.toNat ≠ 10 := fun h10 => h (Char.toNat_inj.mp h10)
  have hbyte : ∀ n < 256, n ≠ 10 → (10 : UInt8) ≠ .ofNat n := fun n hn hne heq => by
    have hnat := congrArg UInt8.toNat heq
    rw [toNat_ofNat_of_lt hn] at hnat
    exact hne hnat.symm
  unfold String.utf8EncodeChar
  dsimp only
  split
  · exact List.mem_singleton.not.mpr (hbyte _ (by omega) hc)
  · split
    · simp only [List.mem_cons, List.not_mem_nil, or_false, not_or]
      exact ⟨hbyte _ (by omega) (by omega), hbyte _ (by omega) (by omega)⟩
    · split
      · simp only [List.mem_cons, List.not_mem_nil, or_false, not_or]
        exact ⟨hbyte _ (by omega) (by omega), hbyte _ (by omega) (by omega),
          hbyte _ (by omega) (by omega)⟩
      · simp only [List.mem_cons, List.not_mem_nil, or_false, not_or]
        exact ⟨hbyte _ (by omega) (by omega), hbyte _ (by omega) (by omega),
          hbyte _ (by omega) (by omega), hbyte _ (by omega) (by omega)⟩

theorem newline_not_mem_encode {s : List Char} (h : '\n' ∉ s) : 10 ∉ encode s := by
  intro hmem
  obtain ⟨c, hc, hmem⟩ := List.mem_flatMap.mp hmem
  exact newline_not_mem_encodeChar (fun heq => h (heq ▸ hc)) hmem

theorem encode_eq_nil_iff {s : List Char} : encode s = [] ↔ s = [] := by
  refine ⟨fun h => ?_, fun h => by rw [h]; rfl⟩
  have htext := leadingText_encode s
  rwa [h, leadingText, eq_comm] at htext

theorem cut_encode (s : List Char) : cut 10 (encode s) = (cut '\n' s).map encode := by
  induction hn : s.length using Nat.strongRecOn generalizing s with
  | ind n ih =>
    by_cases h : '\n' ∈ s
    · obtain ⟨w, r, rfl, hw⟩ := List.eq_append_cons_of_mem h
      have hr := ih r.length (by rw [← hn, List.length_append, List.length_cons]; omega) r rfl
      have hfeed : encode ['\n'] = [10] := rfl
      rw [cut_append hw, encode_append, ← List.singleton_append, encode_append, hfeed,
        List.singleton_append, cut_append (newline_not_mem_encode hw), hr, List.map_cons,
        encode_append, hfeed]
    · by_cases hne : s = []
      · rw [hne]
        exact (cut_nil 10).trans (by rw [cut_nil, List.map_nil])
      · rw [cut_of_not_mem hne h, cut_of_not_mem (encode_eq_nil_iff.not.mpr hne)
          (newline_not_mem_encode h), List.map_singleton]

end Text.Utf8

namespace Git

section Carry

variable {α β : Type} [DecidableEq α] {items : List α} {rows : List (Alignment β)}

/-- A row has an alignment for each suffix of the items, with an owner for each item of the suffix,
and its first one is that of all items. -/
def Covers (rows : List (Alignment β)) (items : List α) : Prop :=
  List.Forall₂ (fun a suffix => a.owners.length = suffix.length) rows items.tails

omit [DecidableEq α] in
theorem covers_nil_iff : Covers rows ([] : List α) ↔ ∃ a, rows = [a] ∧ a.owners = [] := by
  unfold Covers
  rw [List.tails]
  constructor
  · rintro (_ | ⟨ha, ⟨⟩⟩)
    exact ⟨_, rfl, List.length_eq_zero_iff.mp ha⟩
  · rintro ⟨a, rfl, ha⟩
    exact .cons (congrArg List.length ha) .nil

omit [DecidableEq α] in
theorem covers_cons_iff {item : α} :
    Covers rows (item :: items) ↔
      ∃ a rest, rows = a :: rest ∧ a.owners.length = items.length + 1 ∧ Covers rest items := by
  unfold Covers
  rw [List.tails]
  constructor
  · rintro (_ | ⟨ha, hrest⟩)
    exact ⟨_, _, rfl, ha, hrest⟩
  · rintro ⟨a, rest, rfl, ha, hrest⟩
    exact .cons ha hrest

omit [DecidableEq α] in
theorem Covers.exists_head (h : Covers rows items) :
    ∃ a rest, rows = a :: rest ∧ a.owners.length = items.length := by
  cases items with
  | nil =>
    obtain ⟨a, rfl, ha⟩ := covers_nil_iff.mp h
    exact ⟨a, [], rfl, congrArg List.length ha⟩
  | cons item items =>
    obtain ⟨a, rest, rfl, ha, -⟩ := covers_cons_iff.mp h
    exact ⟨a, rest, rfl, ha⟩

omit [DecidableEq α] in
theorem covers_freshRow (owner : β) (items : List α) : Covers (freshRow owner items) items := by
  induction items with
  | nil => exact covers_nil_iff.mpr ⟨_, rfl, rfl⟩
  | cons item items ih => exact covers_cons_iff.mpr ⟨_, _, rfl, List.length_replicate, ih⟩

theorem length_bestOf {owner : β} {item : α} {old : α × β} {n : Nat}
    {skipOld diagonal skipNew : Alignment β} (hold : skipOld.owners.length = n + 1)
    (hdiagonal : diagonal.owners.length = n) (hnew : skipNew.owners.length = n) :
    (bestOf owner item old skipOld diagonal skipNew).owners.length = n + 1 := by
  unfold bestOf
  split
  · rw [List.length_cons, hdiagonal]
  · split
    · exact hold
    · rw [List.length_cons, hnew]

theorem Covers.alignRow (h : Covers rows items) (owner : β) (old : α × β) :
    Covers (alignRow owner old items rows) items := by
  induction items generalizing rows with
  | nil => exact covers_nil_iff.mpr ⟨⟨0, []⟩, rfl, rfl⟩
  | cons item items ih =>
    obtain ⟨skipOld, rest, rfl, hold, hrest⟩ := covers_cons_iff.mp h
    obtain ⟨diagonal, below, rfl, hdiagonal⟩ := hrest.exists_head
    have hbelow := ih hrest
    obtain ⟨skipNew, more, hmore, hnew⟩ := hbelow.exists_head
    rw [Git.alignRow, hmore]
    dsimp only
    rw [← hmore]
    exact covers_cons_iff.mpr ⟨_, _, rfl, length_bestOf hold hdiagonal hnew, hbelow⟩

theorem covers_alignAll (owner : β) (items : List α) (olds : List (α × β)) :
    Covers (alignAll owner items olds) items := by
  induction olds with
  | nil => exact covers_freshRow owner items
  | cons old olds ih => exact ih.alignRow owner old

theorem length_carryMiddle (owner : β) (olds : List (α × β)) (items : List α) :
    (carryMiddle owner olds items).length = items.length := by
  obtain ⟨a, rest, hrows, ha⟩ := (covers_alignAll owner items olds).exists_head
  rwa [carryMiddle, hrows]

theorem commonLength_le (as bs : List α) :
    commonLength as bs ≤ as.length ∧ commonLength as bs ≤ bs.length := by
  fun_induction commonLength as bs with
  | case1 a as bs ih => simpa only [List.length_cons, Nat.add_le_add_iff_right] using ih
  | case2 => exact ⟨Nat.zero_le _, Nat.zero_le _⟩
  | case3 => exact ⟨Nat.zero_le _, Nat.zero_le _⟩

theorem length_carry (owner : β) (olds : List (α × β)) (items : List α) :
    (carry owner olds items).length = items.length := by
  unfold carry
  dsimp only
  have hn := commonLength_le (olds.map Prod.fst) items
  generalize commonLength (olds.map Prod.fst) items = n at hn ⊢
  have hm := commonLength_le ((olds.drop n).reverse.map Prod.fst) (items.drop n).reverse
  generalize commonLength ((olds.drop n).reverse.map Prod.fst) (items.drop n).reverse = m at hm ⊢
  simp only [List.length_append, List.length_map, List.length_reverse, List.length_take,
    List.length_drop, length_carryMiddle] at hn hm ⊢
  omega

end Carry

variable {path : String} {content : List UInt8} {owners : List Commit}

theorem length_of_lineOwners?_cons {c : Commit} {older : List Commit}
    (howners : lineOwners? path (c :: older) = some owners)
    (hcontent : c.files.lookup path = some content) :
    owners.length = (byteLines content).length := by
  rw [lineOwners?, hcontent, Option.map_some] at howners
  obtain rfl := Option.some.inj howners
  have hfresh : ((byteLines content).map fun _ => c).length = (byteLines content).length :=
    List.length_map _
  dsimp only
  split
  · exact hfresh
  · split
    · exact hfresh
    · split
      · exact length_carry c _ _
      · exact hfresh

/-- A blame covers the lines of the file as the newest commit has it. -/
theorem length_of_blameLines? {h : History} (howners : blameLines? h path = some owners)
    (hcontent : h.headFiles.lookup path = some content) :
    owners.length = (byteLines content).length := by
  have howners := (Option.filter_eq_some_iff.mp howners).1
  cases hcommits : h.commits with
  | nil =>
    rw [hcommits] at howners
    cases howners
  | cons c older =>
    rw [hcommits] at howners
    rw [History.headFiles, History.head?, hcommits] at hcontent
    exact length_of_lineOwners?_cons howners hcontent

theorem byteLines_encode (text : List Char) :
    byteLines (Text.Utf8.encode text) = (Text.cut '\n' text).map Text.Utf8.encode :=
  Text.Utf8.cut_encode text

end Git

end CommentTags
