import BoronDns.DenialChain
import BoronDns.DenialRanges
import BoronDns.Lib.BitString

/-!
The hash in the first label of an NSEC3 owner. The label spells the bits of the
hash five at a time, in letters that sort as the numbers they stand for, so the
text of hashes of one length sorts as the hashes do. The snapshot takes the label
from the text of the owner and the image decodes it from the wire form; both read
one hash below any origin but the root, below which the text leaves no label.
-/

namespace BoronDns

open BitString ListCompare DenialIndexes ZoneImageBuilder List

variable {text : List UInt8} {byte : UInt8} {string : List Bool} {pending : ℕ} {value : ℕ}

theorem base32hexValue_digit (h : value < 32) :
    base32hexValue (base32hexDigit value) = some value := by
  have hall : ∀ value : Fin 32, base32hexValue (base32hexDigit value) = some value.val := by decide
  exact hall ⟨value, h⟩

theorem base32hexDigit_of_value (h : base32hexValue byte = some value) :
    value < 32 ∧ byte = base32hexDigit value := by
  have hall : ∀ byte : Fin 256, ∀ value ∈ base32hexValue (UInt8.ofNat byte),
      value < 32 ∧ UInt8.ofNat byte = base32hexDigit value := by decide +kernel
  simpa using hall ⟨byte.toNat, byte.toNat_lt⟩ value (by simpa using h)

theorem toAsciiLowercase_digit (h : value < 32) :
    toAsciiLowercase (base32hexDigit value) = base32hexDigit value := by
  have hall : ∀ value : Fin 32, toAsciiLowercase (base32hexDigit value) = base32hexDigit value := by
    decide
  exact hall ⟨value, h⟩

theorem base32hexDigit_lt_iff {left right : ℕ} (hleft : left < 32) (hright : right < 32) :
    base32hexDigit left < base32hexDigit right ↔ left < right := by
  have hall : ∀ left right : Fin 32, base32hexDigit left < base32hexDigit right ↔
    left.val < right.val := by decide
  exact hall ⟨left, hleft⟩ ⟨right, hright⟩

theorem base32hexDigit_inj {left right : ℕ} (hleft : left < 32) (hright : right < 32)
    (h : base32hexDigit left = base32hexDigit right) : left = right := by
  have hvalue := congrArg base32hexValue h
  rw [base32hexValue_digit hleft, base32hexValue_digit hright] at hvalue
  exact Option.some.inj hvalue

/-- The characters spell the bits, with fewer than five zero bits after
them. -/
def Spells (text : List UInt8) (string : List Bool) : Prop :=
  ∃ values padding, text = values.map base32hexDigit ∧ Fits 5 values ∧ padding < 5 ∧
    chunks 5 values = string ++ List.replicate padding false

theorem Spells.unique {left right : List UInt8} (hleft : Spells left string)
    (hright : Spells right string) : left = right := by
  obtain ⟨leftValues, leftPadding, rfl, hleftFits, hleftPadding, hleftBits⟩ := hleft
  obtain ⟨rightValues, rightPadding, rfl, hrightFits, hrightPadding, hrightBits⟩ := hright
  have hleftLength := congrArg List.length hleftBits
  have hrightLength := congrArg List.length hrightBits
  simp only [length_chunks, length_append, length_replicate] at hleftLength hrightLength
  obtain rfl : leftPadding = rightPadding := by omega
  rw [chunks_inj (by decide) hleftFits hrightFits (hleftBits.trans hrightBits.symm)]

theorem base32hexEmit_spec (buffer pending : ℕ) :
    ∃ values, (base32hexEmit buffer pending).1 = values.map base32hexDigit ∧ Fits 5 values ∧
      (base32hexEmit buffer pending).2 < 5 ∧
      chunks 5 values ++ bits (base32hexEmit buffer pending).2 buffer = bits pending buffer := by
  fun_induction base32hexEmit buffer pending with
  | case1 pending later ih =>
    obtain ⟨values, htext, hfits, hrest, hbits⟩ := ih
    refine ⟨buffer / 2 ^ pending % 32 :: values, ?_, ?_, hrest, ?_⟩
    · rw [map_cons, ← htext]
    · intro value hvalue
      rcases mem_cons.mp hvalue with rfl | hvalue
      · exact Nat.mod_lt _ (by decide)
      · exact hfits value hvalue
    · have hsum : bits (pending + 5) buffer = bits 5 (buffer / 2 ^ pending) ++
          bits pending buffer := by
        rw [Nat.add_comm, bits_add]
      rw [chunks_cons, append_assoc, hbits]
      exact (congrArg (· ++ _) (bits_mod (le_refl 5) _)).trans hsum.symm
  | case2 pending hsmall =>
    refine ⟨[], rfl, by simp [Fits], ?_, rfl⟩
    by_contra hbig
    exact hsmall (pending - 5) (by simp only at hbig; omega)

variable (bytes : List UInt8)

theorem base32hexLoop_spells (buffer : ℕ) (h : pending < 5) :
    Spells (base32hexLoop bytes buffer pending)
      (bits pending buffer ++ chunks 8 (octets bytes)) := by
  induction bytes generalizing buffer pending with
  | nil =>
    by_cases hpending : 0 < pending
    · refine ⟨[buffer * 2 ^ (5 - pending) % 32], 5 - pending, ?_, ?_, by omega, ?_⟩
      · simp [base32hexLoop, hpending]
      · intro value hvalue
        rw [mem_singleton.mp hvalue]
        exact Nat.mod_lt _ (by decide)
      · have hsum : pending + (5 - pending) = 5 := by omega
        have hjoin := bits_mul_add (Nat.two_pow_pos (5 - pending)) pending buffer
        rw [hsum, Nat.add_zero, bits_zero] at hjoin
        rw [chunks_cons, chunks_nil, append_nil, octets, map_nil, chunks_nil, append_nil, ← hjoin]
        exact bits_mod (le_refl 5) _
    · obtain rfl : pending = 0 := by omega
      exact ⟨[], 0, rfl, by simp [Fits], by decide, rfl⟩
  | cons byte rest ih =>
    rw [base32hexLoop]
    have hnext : bits (pending + 8) ((buffer * 256 + byte.toNat) % 2 ^ 16) =
        bits pending buffer ++ bits 8 byte.toNat := by
      rw [bits_mod (by omega)]
      exact bits_mul_add byte.toNat_lt pending buffer
    obtain ⟨values, htext, hfits, hrest, hbits⟩ :=
      base32hexEmit_spec ((buffer * 256 + byte.toNat) % 2 ^ 16) (pending + 8)
    obtain ⟨later, padding, hlater, hlaterFits, hpadding, hlaterBits⟩ :=
      ih ((buffer * 256 + byte.toNat) % 2 ^ 16) hrest
    refine ⟨values ++ later, padding, ?_, ?_, hpadding, ?_⟩
    · rw [map_append, ← htext, ← hlater]
    · intro value hvalue
      exact (mem_append.mp hvalue).elim (hfits value) (hlaterFits value)
    · rw [chunks_append, hlaterBits, ← append_assoc, ← append_assoc, hbits, hnext]
      simp [octets]

/-- The text of a hash spells its bits. -/
theorem base32hexNoPaddingLower_spells :
    Spells (base32hexNoPaddingLower bytes) (chunks 8 (octets bytes)) :=
  base32hexLoop_spells bytes 0 (by decide)

theorem octets_fits : Fits 8 (octets bytes) := by
  intro value hvalue
  obtain ⟨byte, -, rfl⟩ := mem_map.mp hvalue
  exact byte.toNat_lt

theorem length_octets : (octets bytes).length = bytes.length := by
  simp [octets]

/-- Hashes of one length sort as their text does. -/
theorem base32hexNoPaddingLower_lt_iff {left right : List UInt8} (h : left.length = right.length) :
    base32hexNoPaddingLower left < base32hexNoPaddingLower right ↔ left < right := by
  obtain ⟨leftValues, leftPadding, hleft, hleftFits, hleftPadding, hleftBits⟩ :=
    base32hexNoPaddingLower_spells left
  obtain ⟨rightValues, rightPadding, hright, hrightFits, hrightPadding, hrightBits⟩ :=
    base32hexNoPaddingLower_spells right
  have hleftLength := congrArg List.length hleftBits
  have hrightLength := congrArg List.length hrightBits
  simp only [length_chunks, length_append, length_replicate, length_octets]
    at hleftLength hrightLength
  obtain rfl : leftPadding = rightPadding := by omega
  have hlen : leftValues.length = rightValues.length := by omega
  calc base32hexNoPaddingLower left < base32hexNoPaddingLower right
      ↔ leftValues < rightValues := by
        rw [hleft, hright]
        exact lists_map_lt_iff
          (fun a ha b hb => base32hexDigit_lt_iff (hleftFits a ha) (hrightFits b hb))
          (fun a ha b hb => base32hexDigit_inj (hleftFits a ha) (hrightFits b hb))
    _ ↔ chunks 5 leftValues < chunks 5 rightValues :=
        (chunks_lt_iff hleftFits hrightFits hlen).symm
    _ ↔ chunks 8 (octets left) < chunks 8 (octets right) := by
        rw [hleftBits, hrightBits, append_lt_append_iff (by simp [length_octets, h])]
        simp
    _ ↔ octets left < octets right :=
        chunks_lt_iff (octets_fits left) (octets_fits right) (by simp [length_octets, h])
    _ ↔ left < right :=
        lists_map_lt_iff (fun _ _ _ _ => UInt8.lt_iff_toNat_lt.symm)
          (fun _ _ _ _ hbyte => UInt8.toNat_inj.mp hbyte)

/-- `base32hex_no_padding_decode_lower`, which takes text of any length. -/
def base32hexNoPaddingDecodeLoop : List UInt8 → List UInt8 → ℕ → ℕ → Option (List UInt8)
  | [], out, buffer, pending => if 0 < pending ∧ buffer ≠ 0 then none else some out
  | byte :: rest, out, buffer, pending =>
    match base32hexValue (toAsciiLowercase byte) with
    | none => none
    | some value =>
      if pending + 5 < 8 then
        base32hexNoPaddingDecodeLoop rest out (buffer * 32 + value) (pending + 5)
      else
        base32hexNoPaddingDecodeLoop rest
          (out ++ [UInt8.ofNat ((buffer * 32 + value) / 2 ^ (pending - 3))])
          ((buffer * 32 + value) % 2 ^ (pending - 3)) (pending - 3)

def base32hexNoPaddingDecodeLower (encoded : List UInt8) : Option (List UInt8) :=
  base32hexNoPaddingDecodeLoop encoded [] 0 0

/-- The characters, after the bits in front, spell the octets and fewer than
eight zero bits. -/
def Decodes (text : List UInt8) (front : List Bool) (bytes : List UInt8) : Prop :=
  ∃ values padding, lowerLabel text = values.map base32hexDigit ∧ Fits 5 values ∧ padding < 8 ∧
    front ++ chunks 5 values = chunks 8 (octets bytes) ++ List.replicate padding false

variable {bytes : List UInt8}

theorem decodes_nil {front : List Bool} :
    Decodes [] front bytes ↔ ∃ padding < 8, front = chunks 8
      (octets bytes) ++ List.replicate padding false := by
  constructor
  · rintro ⟨values, padding, htext, -, hpadding, hbits⟩
    obtain rfl : values = [] := map_eq_nil_iff.mp htext.symm
    exact ⟨padding, hpadding, by simpa using hbits⟩
  · rintro ⟨padding, hpadding, hbits⟩
    exact ⟨[], padding, rfl, by simp [Fits], hpadding, by simpa using hbits⟩

theorem decodes_cons (h : base32hexValue (toAsciiLowercase byte) = some value) (rest : List UInt8)
    (front : List Bool) (bytes : List UInt8) :
    Decodes (byte :: rest) front bytes ↔ Decodes rest (front ++ bits 5 value) bytes := by
  obtain ⟨hvalue, hdigit⟩ := base32hexDigit_of_value h
  constructor
  · rintro ⟨values, padding, htext, hfits, hpadding, hbits⟩
    cases values with
    | nil => simp [lowerLabel] at htext
    | cons first values =>
      obtain ⟨hfirst, hrest⟩ := List.cons.inj htext
      have hsame : value = first :=
        base32hexDigit_inj hvalue (hfits first (by simp)) (hdigit.symm.trans hfirst)
      subst hsame
      refine ⟨values, padding, hrest, fun v hv => hfits v (mem_cons_of_mem _ hv), hpadding, ?_⟩
      rw [append_assoc]
      exact hbits
  · rintro ⟨values, padding, htext, hfits, hpadding, hbits⟩
    refine ⟨value :: values, padding, ?_, ?_, hpadding, ?_⟩
    · rw [map_cons, ← htext, ← hdigit]
      rfl
    · intro v hv
      rcases mem_cons.mp hv with rfl | hv
      · exact hvalue
      · exact hfits v hv
    · rw [chunks_cons, ← append_assoc]
      exact hbits

theorem not_decodes_cons (h : base32hexValue (toAsciiLowercase byte) = none) (rest : List UInt8)
    (front : List Bool) (bytes : List UInt8) : ¬ Decodes (byte :: rest) front bytes := by
  rintro ⟨values, padding, htext, hfits, -, -⟩
  cases values with
  | nil => simp [lowerLabel] at htext
  | cons first values =>
    have hfirst : toAsciiLowercase byte = base32hexDigit first := (List.cons.inj htext).1
    rw [hfirst, base32hexValue_digit (hfits first (by simp))] at h
    cases h

/-- The pending bits are those of the buffer; each character adds its own and a
full octet is moved to the output. -/
theorem base32hexNoPaddingDecodeLoop_eq_some_iff (text out : List UInt8) {buffer : ℕ}
    (hpending : pending < 8) (hbuffer : buffer < 2 ^ pending) (bytes : List UInt8) :
    base32hexNoPaddingDecodeLoop text out buffer pending = some bytes ↔
      Decodes text (chunks 8 (octets out) ++ bits pending buffer) bytes := by
  induction text generalizing out buffer pending with
  | nil =>
    rw [decodes_nil]
    constructor
    · intro h
      by_cases hleft : 0 < pending ∧ buffer ≠ 0
      · simp [base32hexNoPaddingDecodeLoop, hleft] at h
      · simp only [base32hexNoPaddingDecodeLoop, hleft, if_false, Option.some.injEq] at h
        subst h
        refine ⟨pending, hpending, ?_⟩
        have hzero : buffer = 0 := by
          rcases Nat.eq_zero_or_pos pending with rfl | hpos
          · simpa using hbuffer
          · by_contra hne
            exact hleft ⟨hpos, hne⟩
        rw [hzero, bits_zero]
    · rintro ⟨padding, hpadding, hbits⟩
      have hlen := congrArg List.length hbits
      simp only [length_append, length_chunks, length_octets, length_bits,
        length_replicate] at hlen
      obtain ⟨hout, hrest⟩ := append_inj hbits (by simp [length_octets]; omega)
      have hsame := octets_inj (chunks_inj (by decide) (octets_fits _) (octets_fits _) hout)
      obtain rfl : pending = padding := by omega
      rw [← bits_zero] at hrest
      have hzero := bits_inj hbuffer (Nat.two_pow_pos pending) hrest
      simp [base32hexNoPaddingDecodeLoop, hzero, hsame]
  | cons byte rest ih =>
    rw [base32hexNoPaddingDecodeLoop]
    cases hvalue : base32hexValue (toAsciiLowercase byte) with
    | none => simp [not_decodes_cons hvalue]
    | some value =>
      have hdigit : value < 2 ^ 5 := (base32hexDigit_of_value hvalue).1
      have hjoin : bits (pending + 5) (buffer * 32 + value) = bits pending buffer ++ bits 5 value :=
        bits_mul_add hdigit pending buffer
      have hsum : buffer * 32 + value < 2 ^ (pending + 5) := by
        rw [Nat.pow_add]
        omega
      rw [decodes_cons hvalue, append_assoc, ← hjoin]
      by_cases hsmall : pending + 5 < 8
      · simp only [hsmall, if_true]
        exact ih out hsmall hsum
      · simp only [hsmall, if_false]
        have hsplit : pending + 5 = 8 + (pending - 3) := by omega
        have hoctet : (buffer * 32 + value) / 2 ^ (pending - 3) < 2 ^ 8 := by
          rw [Nat.div_lt_iff_lt_mul (Nat.two_pow_pos _), ← Nat.pow_add, ← hsplit]
          exact hsum
        rw [ih _ (by omega) (Nat.mod_lt _ (Nat.two_pow_pos _)), bits_mod le_rfl, hsplit, bits_add]
        have hmoved : (UInt8.ofNat ((buffer * 32 + value) / 2 ^ (pending - 3))).toNat =
            (buffer * 32 + value) / 2 ^ (pending - 3) := by
          exact Nat.mod_eq_of_lt hoctet
        simp [octets, chunks_append, hmoved]

theorem base32hexNoPaddingDecodeLower_eq_some_iff (text bytes : List UInt8) :
    base32hexNoPaddingDecodeLower text = some bytes ↔ Decodes text [] bytes :=
  base32hexNoPaddingDecodeLoop_eq_some_iff text [] (by decide) (by decide) bytes

theorem lowerLabel_of_spells (h : Spells text string) : lowerLabel text = text := by
  obtain ⟨values, -, rfl, hfits, -, -⟩ := h
  rw [lowerLabel, map_map]
  exact map_congr_left fun value hvalue => toAsciiLowercase_digit (hfits value hvalue)

theorem Spells.decodes (h : Spells (lowerLabel text) (chunks 8 (octets bytes))) :
    Decodes text [] bytes := by
  obtain ⟨values, padding, htext, hfits, hpadding, hbits⟩ := h
  exact ⟨values, padding, htext, hfits, by omega, hbits⟩

/-- Text that spells 20 octets has no padding, and what decodes to them is that
text or that text and one more zero character, which completes no octet. -/
theorem decodes_hash_iff (h : bytes.length = 20) :
    Decodes text [] bytes ↔ lowerLabel text = base32hexNoPaddingLower bytes ∨
      lowerLabel text = base32hexNoPaddingLower bytes ++ [48] := by
  have hspells := base32hexNoPaddingLower_spells bytes
  constructor
  · rintro ⟨values, padding, htext, hfits, hpadding, hbits⟩
    have hlen := congrArg List.length hbits
    simp only [nil_append, length_chunks, length_append, length_replicate, length_octets,
      h] at hlen hbits
    by_cases hzero : padding = 0
    · left
      exact Spells.unique ⟨values, padding, htext, hfits, by omega, hbits⟩ hspells
    · right
      -- 165 bits are 33 characters, and the last spells five zero bits
      obtain rfl : padding = 5 := by omega
      obtain rfl | ⟨front, last, rfl⟩ := eq_nil_or_concat' values
      · simp at hlen
      rw [chunks_append, chunks_cons, chunks_nil, append_nil] at hbits
      obtain ⟨hfront, hlast⟩ := append_inj' hbits (by simp)
      rw [← bits_zero] at hlast
      have hlastZero := bits_inj (hfits last (by simp)) (by decide) hlast
      have hfrontText : Spells (front.map base32hexDigit) (chunks 8 (octets bytes)) :=
        ⟨front, 0, rfl, fun v hv => hfits v (by simp [hv]), by decide, by simpa using hfront⟩
      rw [htext, map_append, hfrontText.unique hspells, hlastZero]
      rfl
  · rintro (htext | htext)
    · exact Spells.decodes (htext ▸ hspells)
    · obtain ⟨values, padding, hvalues, hfits, hpadding, hbits⟩ := hspells
      have hlen := congrArg List.length hbits
      simp only [length_chunks, length_append, length_replicate, length_octets, h]
        at hlen
      obtain rfl : padding = 0 := by omega
      refine ⟨values ++ [0], 5, ?_, ?_, by decide, ?_⟩
      · rw [htext, hvalues, map_append]
        rfl
      · intro value hvalue
        rcases mem_append.mp hvalue with hvalue | hvalue
        · exact hfits value hvalue
        · rw [mem_singleton.mp hvalue]
          decide
      · rw [nil_append, chunks_append, hbits, chunks_cons, bits_zero]
        simp

variable {out : List UInt8}

theorem length_le_of_decodeLoop {buffer : ℕ}
    (h : base32hexNoPaddingDecodeLoop text out buffer pending = some bytes) :
    out.length ≤ bytes.length := by
  fun_induction base32hexNoPaddingDecodeLoop text out buffer pending with
  | case1 => cases h
  | case2 out => exact (Option.some.inj h) ▸ le_rfl
  | case3 => cases h
  | case4 byte rest out buffer pending value hvalue hsmall ih => exact ih h
  | case5 byte rest out buffer pending value hvalue hsmall ih =>
    have hgrown := ih h
    simp only [length_append, length_singleton] at hgrown
    omega

/-- The decoder of SHA-1 hashes stops as soon as the output would pass 20
octets; otherwise it is the decoder of any text. -/
theorem base32hexDecodeLoop_eq (text : List UInt8) (hout : out.length ≤ 20) (buffer pending : ℕ) :
    base32hexDecodeLoop text out buffer pending =
      (base32hexNoPaddingDecodeLoop text out buffer pending).bind fixedSha1HashBytes := by
  induction text generalizing out buffer pending with
  | nil =>
    rw [base32hexDecodeLoop, base32hexNoPaddingDecodeLoop]
    split <;> rfl
  | cons byte rest ih =>
    rw [base32hexDecodeLoop, base32hexNoPaddingDecodeLoop]
    cases base32hexValue (toAsciiLowercase byte) with
    | none => rfl
    | some value =>
      by_cases hsmall : pending + 5 < 8
      · simp only [hsmall, if_true]
        exact ih hout _ _
      · simp only [hsmall, if_false]
        by_cases hfull : out.length = 20
        · simp only [hfull, if_true]
          symm
          rw [Option.bind_eq_none_iff]
          intro bytes hbytes
          have hgrown := length_le_of_decodeLoop hbytes
          simp only [length_append, length_singleton] at hgrown
          rw [fixedSha1HashBytes, if_neg (by omega)]
        · simp only [hfull, if_false]
          exact ih (by simp only [length_append, length_singleton]; omega) _ _

theorem base32hexSha1NoPaddingDecodeLower_eq_some_iff (text bytes : List UInt8) :
    base32hexSha1NoPaddingDecodeLower text = some bytes ↔
      bytes.length = 20 ∧ (lowerLabel text = base32hexNoPaddingLower bytes ∨
        lowerLabel text = base32hexNoPaddingLower bytes ++ [48]) := by
  rw [base32hexSha1NoPaddingDecodeLower, base32hexDecodeLoop_eq text (by simp)]
  constructor
  · intro h
    obtain ⟨decoded, hdecoded, hfixed⟩ := Option.bind_eq_some_iff.mp h
    have hlen : decoded.length = 20 := by
      by_contra hne
      rw [fixedSha1HashBytes, if_neg hne] at hfixed
      cases hfixed
    rw [fixedSha1HashBytes, if_pos hlen] at hfixed
    obtain rfl := Option.some.inj hfixed
    exact ⟨hlen, (decodes_hash_iff hlen).mp
      ((base32hexNoPaddingDecodeLower_eq_some_iff text decoded).mp hdecoded)⟩
  · rintro ⟨hlen, htext⟩
    have hdecoded := (base32hexNoPaddingDecodeLower_eq_some_iff text bytes).mpr
      ((decodes_hash_iff hlen).mpr htext)
    rw [base32hexNoPaddingDecodeLower] at hdecoded
    rw [hdecoded, Option.bind_some, fixedSha1HashBytes, if_pos hlen]

theorem length_base32hexNoPaddingLower (h : bytes.length = 20) :
    (base32hexNoPaddingLower bytes).length = 32 := by
  obtain ⟨values, padding, hvalues, -, hpadding, hbits⟩ := base32hexNoPaddingLower_spells bytes
  have hlen := congrArg List.length hbits
  simp only [length_chunks, length_append, length_replicate, length_octets, h] at hlen
  rw [hvalues, length_map]
  omega

/-- The wire form behind the labels of an origin, if those come first. -/
def stripOriginLabels : List Label → List UInt8 → Option (List UInt8)
  | [], suffixWire => some suffixWire
  | _ :: _, [] => none
  | originLabel :: more, ownerLabelLen :: rest =>
    if ownerLabelLen.toNat ≠ originLabel.length ∨ rest.length < originLabel.length then
      none
    else if !eqIgnoreAsciiCase (rest.take originLabel.length) originLabel then
      none
    else
      stripOriginLabels more (rest.drop originLabel.length)

def nsec3OwnerWireHashBytes (ownerWire : List UInt8) (origin : DomainName) : Option (List UInt8) :=
  match ownerWire with
  | [] => none
  | hashLabelLen :: rest =>
    if hashLabelLen.toNat = 0 ∨ 63 < hashLabelLen.toNat ∨ rest.length < hashLabelLen.toNat then
      none
    else
      match stripOriginLabels origin.labels (rest.drop hashLabelLen.toNat) with
      | none => none
      | some suffixWire =>
        if suffixWire ≠ [0] then
          none
        else
          base32hexSha1NoPaddingDecodeLower (rest.take hashLabelLen.toNat)

/-- Only the labels of the origin itself leave the closing octet. -/
theorem stripOriginLabels_labelsWire {origin labels : List Label} (horigin : ValidLabels origin)
    (hlabels : ValidLabels labels) :
    stripOriginLabels origin (labelsWire labels ++ [0]) = some [0] ↔
      labels.map lowerLabel = origin.map lowerLabel := by
  induction origin generalizing labels with
  | nil =>
    cases labels with
    | nil => simp [stripOriginLabels]
    | cons label labels => simp [stripOriginLabels, labelWire]
  | cons originLabel origin ih =>
    have hfirst := horigin originLabel (by simp)
    cases labels with
    | nil =>
      have hne : originLabel.length ≠ 0 := by omega
      simp [stripOriginLabels, hne.symm]
    | cons label labels =>
      have hlabel := hlabels label (by simp)
      have hrest : stripOriginLabels origin (labelsWire labels ++ [0]) = some [0] ↔
          labels.map lowerLabel = origin.map lowerLabel :=
        ih (fun l hl => horigin l (by simp [hl])) (fun l hl => hlabels l (by simp [hl]))
      rw [labelsWire_cons, labelWire, cons_append, cons_append, stripOriginLabels,
        toNat_ofNat_length hlabel.2, map_cons, map_cons, List.cons.injEq]
      by_cases hlen : label.length = originLabel.length
      · rw [← hlen]
        by_cases hsame : lowerLabel label = lowerLabel originLabel
        · simp [eqIgnoreAsciiCase, hsame, hrest]
        · simp [eqIgnoreAsciiCase, hsame]
      · have hdiffer : lowerLabel label ≠ lowerLabel originLabel := by
          intro h
          exact hlen (by simpa using congrArg List.length h)
        simp [hlen, hdiffer]

variable (owner origin : DomainName)

/-- On the wire form of a name the function reads its labels. -/
theorem nsec3OwnerWireHashBytes_toWire :
    nsec3OwnerWireHashBytes owner.toWire origin = nsec3OwnerHashBytes owner origin := by
  obtain ⟨labels, hvalid⟩ := owner
  cases labels with
  | nil => simp [nsec3OwnerWireHashBytes, nsec3OwnerHashBytes, DomainName.toWire]
  | cons hashLabel rest =>
    have hlabel := hvalid hashLabel (by simp)
    have hrest : ValidLabels rest := fun l hl => hvalid l (by simp [hl])
    have hstrip := stripOriginLabels_labelsWire origin.labels_valid hrest
    have hwire : DomainName.toWire ⟨hashLabel :: rest, hvalid⟩ =
        UInt8.ofNat hashLabel.length :: (hashLabel ++ (labelsWire rest ++ [0])) := by
      simp [DomainName.toWire, labelWire]
    rw [hwire, nsec3OwnerWireHashBytes, nsec3OwnerHashBytes]
    simp only [toNat_ofNat_length hlabel.2, length_append, drop_left', take_left']
    rw [if_neg (by omega)]
    by_cases hbelow : rest.map lowerLabel = origin.lowerLabels
    · simp [hstrip.mpr hbelow, hbelow]
    · simp only [hbelow, if_false]
      cases hsuffix : stripOriginLabels origin.labels (labelsWire rest ++ [0]) with
      | none => rfl
      | some suffixWire =>
        have hne : suffixWire ≠ [0] := by
          rintro rfl
          exact hbelow (hstrip.mp hsuffix)
        simp [hne]

theorem flatMap_escapeByte_of_spells (h : Spells text string) : text.flatMap escapeByte = text := by
  obtain ⟨values, -, rfl, hfits, -, -⟩ := h
  have hplain : ∀ value : Fin 32, escapeByte (base32hexDigit value) = [base32hexDigit value] := by
    decide
  rw [flatMap_map, ← flatMap_pure_eq_map]
  exact flatMap_congr fun value hvalue => hplain ⟨value, hfits value hvalue⟩

/-- The name of the NSEC3 record for a hash: the label of the hash, in letters
of any case, in front of the origin. -/
def IsNsec3Owner (hash : List UInt8) : Prop :=
  ∃ hashLabel rest, owner.labels = hashLabel :: rest ∧ rest.map lowerLabel = origin.lowerLabels ∧
    lowerLabel hashLabel = base32hexNoPaddingLower hash

theorem nsec3OwnerHashLabel_of_isNsec3Owner {owner origin : DomainName} {hash : List UInt8}
    (horigin : origin ≠ DomainName.root) (hlen : hash.length = 20)
    (h : IsNsec3Owner owner origin hash) :
    nsec3OwnerHashLabel owner origin = some (base32hexNoPaddingLower hash) := by
  obtain ⟨hashLabel, rest, hlabels, hrest, htext⟩ := h
  have hplain := flatMap_escapeByte_of_spells (base32hexNoPaddingLower_spells hash)
  have hkey : owner.canonicalKey = base32hexNoPaddingLower hash ++ [46] ++ origin.canonicalKey := by
    rw [owner.canonicalKey_eq_flatMap (by simp [hlabels]),
      origin.canonicalKey_eq_flatMap fun hnil => horigin (DomainName.ext hnil)]
    simp only [DomainName.lowerLabels, hlabels, map_cons, flatMap_cons, htext]
    rw [hrest, labelText, hplain]
    rfl
  have hnotEmpty : base32hexNoPaddingLower hash ≠ [] := by
    intro hnil
    have := length_base32hexNoPaddingLower hlen
    simp [hnil] at this
  have hdot : (46 : UInt8) ∉ base32hexNoPaddingLower hash := by
    rw [← hplain]
    exact dot_notMem_escaped _
  rw [nsec3OwnerHashLabel, stripSuffix_eq_some_iff.mpr hkey, Option.bind_some,
    stripSuffix_eq_some_iff.mpr rfl]
  simp [hnotEmpty, hdot]

theorem nsec3OwnerHashLabel_root {owner : DomainName} {hash : List UInt8}
    (h : IsNsec3Owner owner DomainName.root hash) :
    nsec3OwnerHashLabel owner DomainName.root = none := by
  obtain ⟨hashLabel, rest, hlabels, hrest, htext⟩ := h
  obtain rfl := map_eq_nil_iff.mp hrest
  have hplain := flatMap_escapeByte_of_spells (base32hexNoPaddingLower_spells hash)
  have hkey : owner.canonicalKey = base32hexNoPaddingLower hash ++
      DomainName.root.canonicalKey := by
    rw [owner.canonicalKey_eq_flatMap (by simp [hlabels])]
    simp [DomainName.lowerLabels, hlabels, htext, labelText, hplain]
    rfl
  have hdot : (46 : UInt8) ∉ base32hexNoPaddingLower hash := by
    rw [← hplain]
    exact dot_notMem_escaped _
  rw [nsec3OwnerHashLabel, stripSuffix_eq_some_iff.mpr hkey, Option.bind_some]
  -- what is left of the text in front of the root's dot ends in no dot
  cases hfront : stripSuffix (base32hexNoPaddingLower hash) [46] with
  | none => rfl
  | some front =>
    rw [stripSuffix_eq_some_iff.mp hfront] at hdot
    simp at hdot

/-- What the two indexes rely on, and where it ends: the decoder does not notice one zero
character too many, and the text of an owner below the root is not taken apart. -/
structure HashLabelsAgree (owner origin : DomainName) (hash text : List UInt8) : Prop where
  decode_encode : base32hexNoPaddingDecodeLower (base32hexNoPaddingLower hash) = some hash
  decode_encode_hash : hash.length = 20 →
    base32hexSha1NoPaddingDecodeLower (base32hexNoPaddingLower hash) = some hash
  accepted_iff : ((base32hexSha1NoPaddingDecodeLower text).isSome ↔
      ∃ hash, hash.length = 20 ∧ lowerLabel text = base32hexNoPaddingLower hash) ↔
    ¬ ∃ hash, hash.length = 20 ∧ lowerLabel text = base32hexNoPaddingLower hash ++ [48]
  sorted : ∀ other, hash.length = other.length →
    (hash < other ↔ base32hexNoPaddingLower hash < base32hexNoPaddingLower other)
  recognised_iff : hash.length = 20 → IsNsec3Owner owner origin hash →
    (nsec3OwnerHashLabel owner origin = some (base32hexNoPaddingLower hash) ∧
      nsec3OwnerWireHashBytes owner.toWire origin = some hash ↔ origin ≠ DomainName.root)

theorem hashLabels_agree (owner origin : DomainName) (hash text : List UInt8) :
    HashLabelsAgree owner origin hash text where
  decode_encode := by
    have hspells := base32hexNoPaddingLower_spells hash
    rw [base32hexNoPaddingDecodeLower_eq_some_iff]
    apply Spells.decodes
    rw [lowerLabel_of_spells hspells]
    exact hspells
  decode_encode_hash hlength := by
    rw [base32hexSha1NoPaddingDecodeLower_eq_some_iff]
    exact ⟨hlength, Or.inl (lowerLabel_of_spells (base32hexNoPaddingLower_spells hash))⟩
  accepted_iff := by
    simp only [Option.isSome_iff_exists, base32hexSha1NoPaddingDecodeLower_eq_some_iff, and_or_left,
      exists_or]
    refine ⟨fun h ⟨long, hlong, htext⟩ => ?_, fun h => or_iff_left h⟩
    -- an encoding has 32 characters, so the text is not one as well
    obtain ⟨hash, hhash, hsame⟩ := h.mp (Or.inr ⟨long, hlong, htext⟩)
    have hcount := congrArg List.length (hsame.symm.trans htext)
    rw [length_append, length_base32hexNoPaddingLower hhash,
      length_base32hexNoPaddingLower hlong] at hcount
    cases hcount
  sorted _ hlength := (base32hexNoPaddingLower_lt_iff hlength).symm
  recognised_iff hlength howner := by
    refine ⟨fun ⟨hlabel, _⟩ hroot => ?_, fun horigin => ?_⟩
    · subst hroot
      rw [nsec3OwnerHashLabel_root howner] at hlabel
      cases hlabel
    refine ⟨nsec3OwnerHashLabel_of_isNsec3Owner horigin hlength howner, ?_⟩
    obtain ⟨hashLabel, rest, hlabels, hrest, htext⟩ := howner
    rw [nsec3OwnerWireHashBytes_toWire, nsec3OwnerHashBytes, hlabels]
    simp only [hrest, if_true]
    exact (base32hexSha1NoPaddingDecodeLower_eq_some_iff hashLabel hash).mpr ⟨hlength, Or.inl htext⟩

def zeroHashOwner : DomainName := ⟨[List.replicate 32 48], by decide⟩

/-- Below the root the text of an NSEC3 owner has no suffix that leaves its
label, while the wire form is read; and 33 zero characters are taken for the
hash of 20 zero octets, which 32 characters spell. -/
theorem hashLabels_disagree : (IsNsec3Owner zeroHashOwner DomainName.root (List.replicate 20 0) ∧
      nsec3OwnerHashLabel zeroHashOwner DomainName.root = none ∧
      nsec3OwnerWireHashBytes zeroHashOwner.toWire DomainName.root = some (List.replicate 20 0)) ∧
    base32hexSha1NoPaddingDecodeLower (List.replicate 33 48) = some (List.replicate 20 0) ∧
      ¬ ∃ hash, hash.length = 20 ∧
        lowerLabel (List.replicate 33 48) = base32hexNoPaddingLower hash := by
  refine ⟨⟨⟨List.replicate 32 48, [], rfl, rfl, ?_⟩, ?_, ?_⟩, ?_, ?_⟩
  · decide +kernel
  · decide +kernel
  · decide +kernel
  · decide +kernel
  · rintro ⟨hash, hlength, htext⟩
    have hcount := congrArg List.length htext
    rw [length_base32hexNoPaddingLower hlength] at hcount
    simp at hcount

end BoronDns
