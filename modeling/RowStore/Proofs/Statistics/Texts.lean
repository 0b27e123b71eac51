import RowStore.Proofs.Histogram.Estimates
import RowStore.Proofs.Statistics.Columns

/-!
# RowStore.Proofs.Statistics.Texts: texts are counted in byte order

The key of a text is the number that its first four bytes spell, zeros standing for those that are
missing, without its last bit (`TextHistogram.key_eq`).  A text with a lesser number comes first in
byte order (`Bytes.lt_of_leading_lt`), so keys never descend from a text to one behind it.  As all of
them are in the range of the histogram, recording a text never fails (`TextHistogram.exists_ofTexts`),
and the estimates follow the order of the texts (`TextHistogram.Follows`).
-/

namespace RowStore

/-! ## The first bytes as a number -/

namespace Bytes

variable {a b : Bytes} {width : Nat}

/-- The number that the first bytes spell, a zero standing for each that is missing. -/
def leading : (width : Nat) → Bytes → Nat
  | 0, _ => 0
  | _ + 1, [] => 0
  | width + 1, byte :: bytes => byte.toNat * 256 ^ width + leading width bytes

theorem leading_nil (width : Nat) : leading width [] = 0 := by
  cases width <;> rfl

theorem leading_lt (width : Nat) (bytes : Bytes) : leading width bytes < 256 ^ width := by
  induction width generalizing bytes with
  | zero => exact Nat.one_pos
  | succ width ih =>
    cases bytes with
    | nil => exact Nat.pow_pos (by decide)
    | cons byte bytes =>
      have hhead := Nat.mul_le_mul_right (256 ^ width) (Nat.succ_le_of_lt byte.toNat_lt)
      have hrest := ih bytes
      rw [Nat.succ_mul] at hhead
      rw [leading, Nat.pow_succ']
      omega

/-- Of two byte strings that spell different numbers the lesser number is that of the first. -/
theorem lt_of_leading_lt (h : leading width a < leading width b) : a < b := by
  induction width generalizing a b with
  | zero => exact absurd h (Nat.lt_irrefl 0)
  | succ width ih =>
    cases b with
    | nil => exact absurd h (Nat.not_lt_zero _)
    | cons y b =>
      cases a with
      | nil => exact List.nil_lt_cons y b
      | cons x a =>
        rw [leading, leading] at h
        rw [List.cons_lt_cons_iff]
        rcases Nat.lt_trichotomy x.toNat y.toNat with hlt | heq | hgt
        · exact .inl (UInt8.lt_iff_toNat_lt.mpr hlt)
        · rw [heq] at h
          exact .inr ⟨UInt8.toNat_inj.mp heq, ih (by omega)⟩
        · -- the first byte outweighs all that follow
          have hhead := Nat.mul_le_mul_right (256 ^ width) (Nat.succ_le_of_lt hgt)
          have hrest := leading_lt width b
          rw [Nat.succ_mul] at hhead
          omega

theorem leading_mono (h : a ≤ b) : leading width a ≤ leading width b :=
  Nat.le_of_not_lt fun hlt => h (lt_of_leading_lt hlt)

theorem toNat_cons (byte : UInt8) (bytes : Bytes) :
    toNat (byte :: bytes) = byte.toNat * 256 ^ bytes.length + toNat bytes := by
  induction bytes using List.reverseRecOn with
  | nil => simp [toNat]
  | append_singleton bytes last ih =>
    rw [← List.cons_append, toNat_append_singleton, ih, toNat_append_singleton, List.length_append,
      List.length_singleton, Nat.pow_succ, Nat.add_mul, Nat.mul_assoc, Nat.add_assoc]

theorem toNat_zeros (count : Nat) : toNat (zeros count) = 0 := by
  induction count with
  | zero => rfl
  | succ count ih =>
    have hcons : zeros (count + 1) = 0 :: zeros count := rfl
    rw [hcons, toNat_cons, ih]
    simp

/-- The first bytes of a string that is filled up with zeros spell its leading number. -/
theorem toNat_take_append_zeros {room : Nat} (h : width ≤ room) (bytes : Bytes) :
    toNat ((bytes ++ zeros room).take width) = leading width bytes := by
  induction width generalizing bytes with
  | zero => rfl
  | succ width ih =>
    cases bytes with
    | nil =>
      rw [List.nil_append, zeros, List.take_replicate, ← zeros, toNat_zeros, leading_nil]
    | cons byte bytes =>
      have hlength : ((bytes ++ zeros room).take width).length = width := by
        rw [List.length_take, List.length_append, length_zeros]
        omega
      rw [List.cons_append, List.take_succ_cons, toNat_cons, hlength, ih (by omega), leading]

/-- What a comparison of bytes finds is their lexicographic order. -/
theorem compare_ne_gt_iff : compare a b ≠ .gt ↔ a ≤ b := by
  induction a generalizing b with
  | nil => cases b <;> simp
  | cons x a ih =>
    cases b with
    | nil => simp
    | cons y b =>
      rw [List.compare_cons_cons, List.cons_le_cons_iff]
      cases hbyte : compare x y with
      | lt => simp [Std.compare_eq_lt.mp hbyte]
      | eq =>
        obtain rfl := Std.LawfulEqOrd.compare_eq_iff_eq.mp hbyte
        simp [ih]
      | gt =>
        have hgt : y < x := Std.compare_eq_gt.mp hbyte
        have hlt : ¬ x < y := UInt8.not_lt.mpr (UInt8.le_of_lt hgt)
        have hne : x ≠ y := (UInt8.ne_of_lt hgt).symm
        simp [hlt, hne]

end Bytes

/-- The first text comes before the second in byte order, or has the same bytes. -/
def Precedes (s t : String) : Prop :=
  Utf8.encode s.toList ≤ Utf8.encode t.toList

theorem satisfies_lessOrEqual_iff {s t : String} :
    (Value.text s).satisfies .lessOrEqual (.text t) = true ↔ Precedes s t := by
  rw [Precedes, ← Bytes.compare_ne_gt_iff]
  simp [Value.satisfies, Value.compare?, Comparison.holds]

namespace TextHistogram

/-! ## Keys -/

variable {s t : String} {texts : List String} {requested : Nat}

theorem key_eq (s : String) : key s = (Bytes.leading 4 (Utf8.encode s.toList) / 2 : Nat) := by
  rw [key, Bytes.toNat_take_append_zeros (Nat.le_refl 4)]

theorem key_le_key (h : Precedes s t) : key s ≤ key t := by
  rw [key_eq, key_eq]
  exact_mod_cast Nat.div_le_div_right (Bytes.leading_mono h)

/-! ## Recording -/

section

variable {α : Type} [Arithmetic α]

/-- A histogram in which these texts are recorded. -/
def ofTexts (requested : Nat) (texts : List String) : Except HistogramError (TextHistogram α) :=
  (ofBuckets requested).bind fun h => texts.foldlM add h

theorem foldlM_add_eq (h : TextHistogram α) (texts : List String) :
    texts.foldlM add h = ((texts.map key).foldlM Histogram.add h.keys).map TextHistogram.mk := by
  induction texts generalizing h with
  | nil => rfl
  | cons s texts ih =>
    rw [List.foldlM_cons, List.map_cons, List.foldlM_cons, add]
    cases h.keys.add (key s) with
    | error e => rfl
    | ok keys => exact ih ⟨keys⟩

/-- Texts are recorded as their keys are. -/
theorem ofTexts_eq (requested : Nat) (texts : List String) :
    (ofTexts requested texts : Except HistogramError (TextHistogram α)) =
      (Histogram.ofValues requested 0 2147483647 (texts.map key)).map TextHistogram.mk := by
  rw [ofTexts, ofBuckets, Histogram.ofValues]
  cases (Histogram.ofRange requested 0 2147483647 : Except HistogramError (Histogram α)) with
  | error e => rfl
  | ok keys => exact foldlM_add_eq ⟨keys⟩ texts

/-- These texts were recorded, and any other can be: each text has a bucket to be counted in. -/
structure Records (h : TextHistogram α) (texts : List String) : Prop where
  total : h.total = texts.length
  starts : h.keys.starts.length = h.keys.buckets
  bucket : ∀ s, h.keys.bucket (key s) < h.keys.buckets
  add : ∀ s, ∃ next, h.add s = .ok next

/-- However the fractions are rounded, any texts are recorded one after the other. -/
theorem exists_ofTexts (hrequested : 0 < requested) (texts : List String) :
    ∃ h : TextHistogram α, ofTexts requested texts = .ok h ∧ h.Records texts := by
  obtain ⟨empty, hempty⟩ : ∃ empty : Histogram α,
      Histogram.ofRange requested 0 2147483647 = .ok empty :=
    ⟨_, by rw [Histogram.ofRange, if_neg (by omega), if_neg (by omega)]⟩
  obtain ⟨hmin, hmax, htotal⟩ := Histogram.ofRange_eq_ok hempty
  obtain ⟨hpos, hstarts⟩ := Histogram.buckets_of_ofRange hempty
  have hkeys : ∀ v ∈ texts.map key, empty.min ≤ v ∧ v ≤ empty.max := by
    intro v hv
    obtain ⟨s, -, rfl⟩ := List.mem_map.mp hv
    rw [hmin, hmax]
    exact key_mem s
  obtain ⟨keys, hfold, hsame, htotal'⟩ := Histogram.exists_foldlM_add hkeys
  refine ⟨⟨keys⟩, ?_, ?_, ?_, fun s => ?_, fun s => ?_⟩
  · rw [ofTexts_eq, Histogram.ofValues, hempty]
    exact congrArg (Except.map TextHistogram.mk) hfold
  · rw [total, htotal', htotal, List.length_map, Nat.zero_add]
  · rw [hsame.starts, hsame.buckets, hstarts]
  · refine Histogram.bucket_lt_buckets ?_ (key s)
    rw [hsame.buckets]
    exact hpos
  · obtain ⟨hlow, hhigh⟩ := key_mem s
    rw [add, Histogram.add, hsame.min, hsame.max, hmin, hmax, if_pos ⟨hlow, hhigh⟩]
    exact ⟨_, rfl⟩

end

/-! ## Estimates -/

/-- From the first text to the second the estimates for less never decrease and those for greater
never increase. -/
structure Follows (h : TextHistogram ℚ) (s t : String) : Prop where
  less : h.selectivity .less s ≤ h.selectivity .less t
  lessOrEqual : h.selectivity .lessOrEqual s ≤ h.selectivity .lessOrEqual t
  greater : h.selectivity .greater t ≤ h.selectivity .greater s
  greaterOrEqual : h.selectivity .greaterOrEqual t ≤ h.selectivity .greaterOrEqual s

theorem follows_of_key_le {h : TextHistogram ℚ} {least greatest : Int}
    (hd : Distributes least greatest h.keys.selectivity) (hkey : key s ≤ key t) : h.Follows s t where
  less := hd.monotone_less hkey
  lessOrEqual := hd.monotone_lessOrEqual hkey
  greater := hd.antitone_greater hkey
  greaterOrEqual := hd.antitone_greaterOrEqual hkey

/-- As long as there are no texts, none is estimated to be less or greater. -/
theorem selectivity_of_total_eq_zero {h : TextHistogram ℚ} (hmin : h.keys.min = 0)
    (htotal : h.keys.total = 0) {op : Comparison} (hop : op ≠ .notEqual) (s : String) :
    h.selectivity op s = 0 := by
  have hlow := (key_mem s).1
  have hequal : h.keys.equal (key s) = 0 := by
    unfold Histogram.equal
    rw [if_pos (by tauto)]
    rfl
  have hless : h.keys.less (key s) = 0 := by
    unfold Histogram.less
    rw [if_pos (by tauto)]
    rfl
  have hgreater : h.keys.greater (key s) = 0 := by
    unfold Histogram.greater
    rw [if_neg (by omega), if_pos (by tauto)]
    rfl
  cases op <;> simp_all [selectivity, Histogram.selectivity]

/-- What was filled with texts has recorded their keys. -/
theorem records_of_ofTexts {h : TextHistogram ℚ} (hfilled : ofTexts requested texts = .ok h) :
    h.keys.Records (texts.map key) ∧ h.keys.min = 0 := by
  have hrequested : 0 < requested := by
    refine Nat.pos_of_ne_zero fun hzero => ?_
    rw [ofTexts, ofBuckets, Histogram.ofRange, if_pos hzero] at hfilled
    cases hfilled
  obtain ⟨keys, hkeys, hrecords, hmin, -⟩ := Histogram.exists_ofValues hrequested
    (by decide : (0 : Int) ≤ 2147483647) fun v hv => by
      obtain ⟨s, -, rfl⟩ := List.mem_map.mp hv
      exact key_mem s
  rw [ofTexts_eq, hkeys] at hfilled
  obtain rfl := Except.ok.inj hfilled
  exact ⟨hrecords, hmin⟩

theorem follows_of_ofTexts {h : TextHistogram ℚ} (hfilled : ofTexts requested texts = .ok h)
    (hprecedes : Precedes s t) : h.Follows s t := by
  obtain ⟨hrecords, hmin⟩ := records_of_ofTexts hfilled
  rcases Nat.eq_zero_or_pos h.keys.total with hzero | hpos
  · have hnone := fun op (hop : op ≠ Comparison.notEqual) => selectivity_of_total_eq_zero hmin hzero hop
    constructor
    all_goals rw [hnone _ (by decide), hnone _ (by decide)]
  · exact follows_of_key_le (hrecords.tallied.distributes hpos) (key_le_key hprecedes)

/-- Texts are counted in byte order: the keys ascend with the texts and all are in the range of the
histogram, so any texts are recorded, and what is estimated to be less than a text, or greater,
follows the order of the texts. -/
theorem respects_byte_order :
    (∀ s t, (Value.text s).satisfies .lessOrEqual (.text t) = true ↔ Precedes s t) ∧
    (∀ s t, Precedes s t → key s ≤ key t) ∧
    (∀ s, 0 ≤ key s ∧ key s ≤ 2147483647) ∧
    (∀ (α : Type) [Arithmetic α] (requested : Nat) (texts : List String), 0 < requested →
      ∃ h : TextHistogram α, ofTexts requested texts = .ok h ∧ h.Records texts) ∧
    ∀ (requested : Nat) (texts : List String) (h : TextHistogram ℚ),
      ofTexts requested texts = .ok h → ∀ s t, Precedes s t → h.Follows s t :=
  ⟨fun _ _ => satisfies_lessOrEqual_iff, fun _ _ => key_le_key, key_mem,
    fun _ _ _ texts hrequested => exists_ofTexts hrequested texts,
    fun _ _ _ hfilled _ _ => follows_of_ofTexts hfilled⟩

/-- The first text is a prefix of the second; among those that are recorded one has bytes above 127
and one has none. -/
theorem respects_byte_order_prefix :
    Precedes "ab" "abc" ∧ key "ab" ≤ key "abc" ∧
      ∃ h : TextHistogram ℚ, ofTexts 10 ["abc", "é", ""] = .ok h ∧ h.Records ["abc", "é", ""] ∧
        h.Follows "ab" "abc" := by
  obtain ⟨-, hkey, -, hexists, hfollows⟩ := respects_byte_order
  have hprecedes : Precedes "ab" "abc" := by
    unfold Precedes
    decide
  obtain ⟨h, hfilled, hrecords⟩ := hexists ℚ 10 ["abc", "é", ""] (by decide)
  exact ⟨hprecedes, hkey _ _ hprecedes, h, hfilled, hrecords, hfollows _ _ h hfilled _ _ hprecedes⟩

end TextHistogram

end RowStore
