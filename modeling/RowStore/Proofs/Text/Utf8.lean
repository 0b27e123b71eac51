import RowStore.Text.Utf8
import Mathlib.Algebra.Group.Nat.Defs
import Mathlib.Logic.Basic
import Mathlib.Tactic.SplitIfs

/-!
# RowStore.Proofs.Text.Utf8: what is written as UTF-8 reads back

The decoder carries the character in progress.  A leading byte of a written character opens it
with bounds that its second byte meets (`open?_two`, `open?_three`, `open?_four`), every later
byte contributes six bits (`push?_ofNat`), and so the bytes of one character take the decoder
from between two characters to between the next two (`decodeFrom_utf8EncodeChar`).  The other way
round, the bytes of the character in progress begin whatever character comes of it
(`Pending.Begins`).  Main statements: `decode_eq_ok_iff`, that characters are read from what they
are written as and from nothing else; `decode_isOk_iff`, that valid UTF-8 can be read; and
`prefix_fit_iff`, that text is cut as late as whole characters allow.
-/

namespace RowStore.Utf8

/-- The values a character can have. -/
theorem toNat_cases (c : Char) :
    c.val.toNat < 0xD800 ∨ (0xDFFF < c.val.toNat ∧ c.val.toNat < 0x110000) :=
  c.valid

namespace Pending

theorem open?_one {v : Nat} (h : v ≤ 127) :
    open? (UInt8.ofNat v) = some { value := v, seen := 1, more := 0 } := by
  have hb : (UInt8.ofNat v).toNat = v := UInt8.toNat_ofNat_of_lt' (show _ < 256 by omega)
  unfold open?
  simp only [hb]
  rw [if_pos (by omega)]

/-- The lead of a two-byte character opens it.  The leads `C0` and `C1` do not arise. -/
theorem open?_two {v : Nat} (hlow : 127 < v) (hhigh : v ≤ 2047) :
    open? (UInt8.ofNat (v / 64 % 32 + 192)) = some { value := v / 64, seen := 1, more := 1 } := by
  have hb : (UInt8.ofNat (v / 64 % 32 + 192)).toNat = v / 64 + 192 := by
    rw [UInt8.toNat_ofNat_of_lt' (show _ < 256 by omega)]
    omega
  unfold open?
  simp only [hb]
  rw [if_neg (by omega), if_neg (by omega), if_pos (by omega), Nat.add_sub_cancel]

/-- The lead of a three-byte character opens it, and the bounds it sets for the second byte are
met: after `E0` because the value needs three bytes, after `ED` because it is no surrogate. -/
theorem open?_three {v : Nat} (hlow : 2047 < v) (hhigh : v ≤ 65535)
    (hv : v < 0xD800 ∨ 0xDFFF < v) :
    ∃ low high, open? (UInt8.ofNat (v / 4096 % 16 + 224)) =
        some { value := v / 4096, seen := 1, more := 2, low, high } ∧
      low ≤ v / 64 % 64 + 128 ∧ v / 64 % 64 + 128 ≤ high := by
  have hb : (UInt8.ofNat (v / 4096 % 16 + 224)).toNat = v / 4096 + 224 := by
    rw [UInt8.toNat_ofNat_of_lt' (show _ < 256 by omega)]
    omega
  unfold open?
  simp only [hb]
  rw [if_neg (by omega), if_neg (by omega), if_neg (by omega)]
  by_cases h0 : v / 4096 = 0
  · rw [if_pos (by omega), h0]
    exact ⟨0xA0, 0xBF, rfl, by omega, by omega⟩
  rw [if_neg (by omega)]
  by_cases hD : v / 4096 = 0xD
  · rw [if_pos (by omega), hD]
    exact ⟨0x80, 0x9F, rfl, by omega, by omega⟩
  · rw [if_neg (by omega), if_pos (by omega), Nat.add_sub_cancel]
    exact ⟨0x80, 0xBF, rfl, by omega, by omega⟩

/-- The lead of a four-byte character opens it, and the bounds it sets for the second byte are
met: after `F0` because the value needs four bytes, after `F4` because it is at most `10FFFF`. -/
theorem open?_four {v : Nat} (hlow : 65535 < v) (hhigh : v < 0x110000) :
    ∃ low high, open? (UInt8.ofNat (v / 262144 % 8 + 240)) =
        some { value := v / 262144, seen := 1, more := 3, low, high } ∧
      low ≤ v / 4096 % 64 + 128 ∧ v / 4096 % 64 + 128 ≤ high := by
  have hb : (UInt8.ofNat (v / 262144 % 8 + 240)).toNat = v / 262144 + 240 := by
    rw [UInt8.toNat_ofNat_of_lt' (show _ < 256 by omega)]
    omega
  unfold open?
  simp only [hb]
  rw [if_neg (by omega), if_neg (by omega), if_neg (by omega), if_neg (by omega),
    if_neg (by omega), if_neg (by omega)]
  by_cases h0 : v / 262144 = 0
  · rw [if_pos (by omega), h0]
    exact ⟨0x90, 0xBF, rfl, by omega, by omega⟩
  rw [if_neg (by omega)]
  by_cases h4 : v / 262144 = 4
  · rw [if_neg (by omega), if_pos (by omega), h4]
    exact ⟨0x80, 0x8F, rfl, by omega, by omega⟩
  · rw [if_pos (by omega), Nat.add_sub_cancel]
    exact ⟨0x80, 0xBF, rfl, by omega, by omega⟩

/-- A later byte adds its six bits to the character in progress. -/
theorem push?_ofNat {pending : Pending} {bits : Nat} (h : bits < 64)
    (hlow : pending.low ≤ bits + 128) (hhigh : bits + 128 ≤ pending.high) :
    pending.push? (UInt8.ofNat (bits + 128)) =
      some {
        value := pending.value * 64 + bits
        seen := pending.seen + 1
        more := pending.more - 1 } := by
  have hb : (UInt8.ofNat (bits + 128)).toNat = bits + 128 :=
    UInt8.toNat_ofNat_of_lt' (show _ < 256 by omega)
  unfold push?
  rw [hb, if_pos ⟨hlow, hhigh⟩, Nat.add_sub_cancel]

end Pending

section Step

variable {pending next : Pending} {byte : UInt8} {rest : Bytes}

theorem decodeFrom_open (position : Nat) (h : Pending.open? byte = some next)
    (hmore : next.more ≠ 0) :
    decodeFrom none position (byte :: rest) = decodeFrom (some next) position rest := by
  simp [decodeFrom, h, hmore]

theorem decodeFrom_push (position : Nat) (h : pending.push? byte = some next)
    (hmore : next.more ≠ 0) :
    decodeFrom (some pending) position (byte :: rest) = decodeFrom (some next) position rest := by
  simp [decodeFrom, h, hmore]

theorem decodeFrom_close (position : Nat) (h : pending.push? byte = some next)
    (hmore : next.more = 0) :
    decodeFrom (some pending) position (byte :: rest) =
      (decodeFrom none (position + next.seen) rest).map (Char.ofNat next.value :: ·) := by
  simp [decodeFrom, h, hmore]

end Step

/-- The bytes of one character are read as that character. -/
theorem decodeFrom_utf8EncodeChar (c : Char) (position : Nat) (rest : Bytes) :
    ∃ next, decodeFrom none position (String.utf8EncodeChar c ++ rest) =
      (decodeFrom none next rest).map (c :: ·) := by
  have hvalid := toNat_cases c
  have hchar : Char.ofNat c.val.toNat = c := Char.ofNat_toNat c
  unfold String.utf8EncodeChar
  generalize c.val.toNat = v at hvalid hchar ⊢
  simp only
  -- one case for each number of bytes; every byte behind the lead adds six bits to the value
  split_ifs with h1 h2 h3
  · refine ⟨position + 1, ?_⟩
    rw [List.cons_append, List.nil_append]
    simp [decodeFrom, Pending.open?_one h1, hchar]
  · refine ⟨position + 2, ?_⟩
    rw [List.cons_append, List.cons_append, List.nil_append,
      decodeFrom_open position (Pending.open?_two (by omega) h2) (by simp),
      decodeFrom_close position (Pending.push?_ofNat (by omega) (by simp) (by simp; omega)) rfl]
    rw [show v / 64 * 64 + v % 64 = v by omega, hchar]
  · obtain ⟨low, high, hopen, hlow, hhigh⟩ := Pending.open?_three (by omega) h3 (by omega)
    refine ⟨position + 3, ?_⟩
    rw [List.cons_append, List.cons_append, List.cons_append, List.nil_append,
      decodeFrom_open position hopen (by simp),
      decodeFrom_push position (Pending.push?_ofNat (by omega) hlow hhigh) (by simp),
      decodeFrom_close position (Pending.push?_ofNat (by omega) (by simp) (by simp; omega)) rfl]
    rw [show (v / 4096 * 64 + v / 64 % 64) * 64 + v % 64 = v by omega, hchar]
  · obtain ⟨low, high, hopen, hlow, hhigh⟩ := Pending.open?_four (v := v) (by omega) (by omega)
    refine ⟨position + 4, ?_⟩
    rw [List.cons_append, List.cons_append, List.cons_append, List.cons_append, List.nil_append,
      decodeFrom_open position hopen (by simp),
      decodeFrom_push position (Pending.push?_ofNat (by omega) hlow hhigh) (by simp),
      decodeFrom_push position (Pending.push?_ofNat (by omega) (by simp) (by simp; omega))
        (by simp),
      decodeFrom_close position (Pending.push?_ofNat (by omega) (by simp) (by simp; omega)) rfl]
    rw [show ((v / 262144 * 64 + v / 4096 % 64) * 64 + v / 64 % 64) * 64 + v % 64 = v by omega,
      hchar]

theorem decodeFrom_encode (chars : List Char) (position : Nat) :
    decodeFrom none position (encode chars) = .ok chars := by
  induction chars generalizing position with
  | nil => rfl
  | cons c chars ih =>
    obtain ⟨next, hnext⟩ := decodeFrom_utf8EncodeChar c position (encode chars)
    rw [encode_cons, hnext, ih]
    rfl

/-- Characters written as UTF-8 read back. -/
theorem decode_encode (chars : List Char) : decode (encode chars) = .ok chars :=
  decodeFrom_encode chars 0

/-! ## Cutting -/

/-- What `fit` keeps is the longest run of leading characters with at most `limit` bytes. -/
theorem prefix_fit_iff (run : List Char) (limit : Nat) (chars : List Char) :
    run <+: fit limit chars ↔ run <+: chars ∧ (encode run).length ≤ limit := by
  induction chars generalizing run limit with
  | nil =>
    rw [fit, List.prefix_nil]
    constructor
    · rintro rfl
      exact ⟨rfl, Nat.zero_le _⟩
    · exact fun h => h.1
  | cons c chars ih =>
    cases run with
    | nil => simp
    | cons d run =>
      have hlength : (encode (d :: run)).length = d.utf8Size + (encode run).length := by
        rw [encode_cons, List.length_append, String.length_utf8EncodeChar]
      rw [fit, List.cons_prefix_cons, hlength]
      split_ifs with hfits
      · rw [List.cons_prefix_cons, ih]
        constructor
        · rintro ⟨rfl, hrun, hbytes⟩
          exact ⟨⟨rfl, hrun⟩, by omega⟩
        · rintro ⟨⟨rfl, hrun⟩, hbytes⟩
          exact ⟨rfl, hrun, by omega⟩
      · rw [List.prefix_nil]
        constructor
        · intro h
          cases h
        · rintro ⟨⟨rfl, -⟩, hbytes⟩
          omega

/-- Text that fits is kept whole. -/
theorem fit_eq_self {limit : Nat} {chars : List Char} (h : (encode chars).length ≤ limit) :
    fit limit chars = chars := by
  have hprefix := (prefix_fit_iff chars limit chars).mpr ⟨List.prefix_refl _, h⟩
  have hback := (prefix_fit_iff (fit limit chars) limit chars).mp (List.prefix_refl _)
  exact hback.1.eq_of_length_le hprefix.length_le

/-! ## Written again -/

theorem toNat_val_ofNat {v : Nat} (hv : v < 0xD800 ∨ 0xDFFF < v ∧ v < 0x110000) :
    (Char.ofNat v).val.toNat = v := by
  unfold Char.ofNat
  rw [dif_pos (show v.isValidChar from hv)]
  exact UInt32.toNat_ofNatLT ..

/-- The bytes behind the lead of a written character, of which each has six bits of its value. -/
def laterBytes : (more v : Nat) → Bytes
  | 0, _ => []
  | more + 1, v => UInt8.ofNat (v / 64 ^ more % 64 + 128) :: laterBytes more v

theorem encode_one {v : Nat} {byte : UInt8} (hbyte : byte.toNat = v) (hv : v < 0x80) :
    String.utf8EncodeChar (Char.ofNat v) = [byte] := by
  unfold String.utf8EncodeChar
  rw [toNat_val_ofNat (by omega)]
  simp only
  rw [if_pos (by omega), ← hbyte, UInt8.ofNat_toNat]

theorem encode_two {v : Nat} {lead : UInt8} (hlead : lead.toNat = v / 64 + 0xC0)
    (hlow : 0x80 ≤ v) (hhigh : v < 0x800) :
    String.utf8EncodeChar (Char.ofNat v) = lead :: laterBytes 1 v := by
  have hbyte : v / 64 % 32 + 192 = lead.toNat := by omega
  unfold String.utf8EncodeChar
  rw [toNat_val_ofNat (by omega)]
  simp only
  rw [if_neg (by omega), if_pos (by omega), hbyte, UInt8.ofNat_toNat]
  simp [laterBytes]

theorem encode_three {v : Nat} {lead : UInt8} (hlead : lead.toNat = v / 4096 + 0xE0)
    (hlow : 0x800 ≤ v) (hv : v < 0xD800 ∨ 0xDFFF < v ∧ v < 0x10000) :
    String.utf8EncodeChar (Char.ofNat v) = lead :: laterBytes 2 v := by
  have hbyte : v / 4096 % 16 + 224 = lead.toNat := by omega
  unfold String.utf8EncodeChar
  rw [toNat_val_ofNat (by omega)]
  simp only
  rw [if_neg (by omega), if_neg (by omega), if_pos (by omega), hbyte, UInt8.ofNat_toNat]
  simp [laterBytes]

theorem encode_four {v : Nat} {lead : UInt8} (hlead : lead.toNat = v / 262144 + 0xF0)
    (hlow : 0x10000 ≤ v) (hhigh : v < 0x110000) :
    String.utf8EncodeChar (Char.ofNat v) = lead :: laterBytes 3 v := by
  have hbyte : v / 262144 % 8 + 240 = lead.toNat := by omega
  unfold String.utf8EncodeChar
  rw [toNat_val_ofNat (by omega)]
  simp only
  rw [if_neg (by omega), if_neg (by omega), if_neg (by omega), hbyte, UInt8.ofNat_toNat]
  simp [laterBytes]

/-- The character in progress was read from the bytes `front`: whatever character comes of it is
written with `front` before the bytes that are missing. -/
structure Pending.Begins (pending : Pending) (front : Bytes) : Prop where
  low : 0x80 ≤ pending.low
  high : pending.high ≤ 0xBF
  written : ∀ v, v / 64 ^ pending.more = pending.value →
    (∀ more, pending.more = more + 1 →
      pending.low ≤ v / 64 ^ more % 64 + 128 ∧ v / 64 ^ more % 64 + 128 ≤ pending.high) →
    String.utf8EncodeChar (Char.ofNat v) = front ++ laterBytes pending.more v

theorem Pending.begins_of_open? {byte : UInt8} {pending : Pending} (h : open? byte = some pending) :
    pending.Begins [byte] := by
  unfold open? at h
  simp only [ite_eq_iff, reduceCtorEq, and_false, false_or, or_false, Option.some.injEq] at h
  obtain ⟨_, rfl⟩ | ⟨_, _, ⟨_, rfl⟩ | ⟨_, ⟨_, rfl⟩ | ⟨_, ⟨_, rfl⟩ | ⟨_, ⟨_, rfl⟩ | ⟨_, ⟨_, rfl⟩ |
    ⟨_, ⟨_, rfl⟩ | ⟨_, ⟨_, rfl⟩⟩⟩⟩⟩⟩⟩⟩ := h
  · refine ⟨by simp, by simp, fun v hv _ => ?_⟩
    simp only [Nat.pow_zero, Nat.div_one] at hv
    exact encode_one hv.symm (by omega)
  · refine ⟨by simp, by simp, fun v hv _ => ?_⟩
    simp only [Nat.pow_one] at hv
    exact encode_two (by omega) (by omega) (by omega)
  -- the bounds of the second byte rule out what is too small, too great or a surrogate
  iterate 3
    · refine ⟨by simp, by simp, fun v hv hnext => ?_⟩
      have hsecond := hnext _ rfl
      simp only [Nat.reducePow, Nat.pow_one] at hv hsecond
      exact encode_three (by omega) (by omega) (by omega)
  iterate 3
    · refine ⟨by simp, by simp, fun v hv hnext => ?_⟩
      have hsecond := hnext _ rfl
      simp only [Nat.reducePow] at hv hsecond
      exact encode_four (by omega) (by omega) (by omega)

theorem Pending.Begins.push? {pending next : Pending} {byte : UInt8} {front : Bytes}
    (hbegins : pending.Begins front) (hmore : pending.more ≠ 0)
    (h : pending.push? byte = some next) : next.Begins (front ++ [byte]) := by
  obtain ⟨more, hmore⟩ := Nat.exists_eq_add_one_of_ne_zero hmore
  unfold Pending.push? at h
  split_ifs at h with hbounds
  obtain rfl := Option.some.inj h
  have hlow := hbegins.low
  have hhigh := hbegins.high
  refine ⟨by simp, by simp, fun v hv _ => ?_⟩
  simp only [hmore, Nat.add_sub_cancel] at hv ⊢
  -- the byte has the next six bits of the value
  have hbits : v / 64 ^ more % 64 + 128 = byte.toNat := by omega
  have hvalue : v / 64 ^ pending.more = pending.value := by
    rw [hmore, Nat.pow_succ, ← Nat.div_div_eq_div_mul, hv]
    omega
  have hnext : ∀ m, pending.more = m + 1 →
      pending.low ≤ v / 64 ^ m % 64 + 128 ∧ v / 64 ^ m % 64 + 128 ≤ pending.high := by
    intro m hm
    obtain rfl : more = m := by omega
    rwa [hbits]
  rw [hbegins.written v hvalue hnext, hmore, laterBytes, hbits, UInt8.ofNat_toNat,
    List.append_assoc, List.singleton_append]

theorem encode_of_close {pending : Pending} {front : Bytes} {chars : List Char}
    {result : Except Failure (List Char)} (hbegins : pending.Begins front)
    (hmore : pending.more = 0) (h : result.map (Char.ofNat pending.value :: ·) = .ok chars) :
    ∃ rest, result = .ok rest ∧ encode chars = front ++ encode rest := by
  cases result with
  | error e => cases h
  | ok rest =>
    cases h
    have hwritten := hbegins.written pending.value (by simp [hmore]) (by simp [hmore])
    rw [hmore, laterBytes, List.append_nil] at hwritten
    exact ⟨rest, rfl, by rw [encode_cons, hwritten]⟩

/-- The bytes of the character in progress that were read already are `front`. -/
def Begun (front : Bytes) : Option Pending → Prop
  | none => front = []
  | some pending => pending.Begins front ∧ pending.more ≠ 0

theorem encode_of_decodeFrom {bytes front : Bytes} {pending : Option Pending} {position : Nat}
    {chars : List Char} (hfront : Begun front pending)
    (h : decodeFrom pending position bytes = .ok chars) : encode chars = front ++ bytes := by
  induction bytes generalizing pending position chars front with
  | nil =>
    cases pending with
    | none =>
      cases h
      rw [show front = [] from hfront]
      rfl
    | some started => cases h
  | cons byte bytes ih =>
    -- the byte opens a character or goes on with one, and may be the last of it
    suffices hnext : ∃ next : Pending, next.Begins (front ++ [byte]) ∧
        (if next.more = 0 then
          (decodeFrom none (position + next.seen) bytes).map (Char.ofNat next.value :: ·)
        else decodeFrom (some next) position bytes) = .ok chars by
      obtain ⟨next, hbegins, hrest⟩ := hnext
      rw [List.append_cons]
      split_ifs at hrest with hmore
      · obtain ⟨rest, hdecoded, hwritten⟩ := encode_of_close hbegins hmore hrest
        rw [hwritten, @ih [] none _ _ rfl hdecoded, List.nil_append]
      · exact @ih _ (some next) _ _ ⟨hbegins, hmore⟩ hrest
    cases pending with
    | none =>
      obtain rfl : front = [] := hfront
      rw [decodeFrom] at h
      cases hopen : Pending.open? byte with
      | none => simp [hopen] at h
      | some next =>
        rw [hopen] at h
        exact ⟨next, Pending.begins_of_open? hopen, h⟩
    | some started =>
      obtain ⟨hbegins, hmore⟩ := hfront
      rw [decodeFrom] at h
      cases hpush : started.push? byte with
      | none => simp [hpush] at h
      | some next =>
        rw [hpush] at h
        exact ⟨next, hbegins.push? hmore hpush, h⟩

/-- What is read as characters is what they are written as, and nothing else. -/
theorem decode_eq_ok_iff {bytes : Bytes} {chars : List Char} :
    decode bytes = .ok chars ↔ encode chars = bytes := by
  constructor
  · intro h
    exact @encode_of_decodeFrom bytes [] none 0 chars rfl h
  · rintro rfl
    exact decode_encode chars

/-- Exactly what is valid as UTF-8 can be read. -/
theorem decode_isOk_iff {bytes : Bytes} :
    (∃ chars, decode bytes = .ok chars) ↔ bytes.toByteArray.IsValidUTF8 := by
  simp only [decode_eq_ok_iff]
  constructor
  · rintro ⟨chars, rfl⟩
    exact ⟨chars, rfl⟩
  · rintro ⟨chars, hchars⟩
    exact ⟨chars, (List.toByteArray_inj.mp hchars).symm⟩

end RowStore.Utf8
