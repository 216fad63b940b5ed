import Mathlib.Data.List.DropRight
import BoronDns.DenialRanges
import BoronDns.TransferRecord

/-!
Type bit maps. A set of record types is written window by window, in the order of
the windows, each with the octets up to its last one that is not zero. The check of
a transferred record accepts exactly what is written so, every set is written in
exactly one way, and the search of an NSEC3 record finds exactly the types of the set.
-/

namespace BoronDns

open List UInt8 Nat

/-- One window: the octets of its bits, up to the last one that is not zero. -/
@[ext]
structure TypeWindow where
  number : UInt8
  octets : List UInt8
  length_le : octets.length ≤ 32
  last_ne_zero : octets.getD (octets.length - 1) 0 ≠ 0

def TypeWindow.wire (window : TypeWindow) : List UInt8 :=
  window.number :: UInt8.ofNat window.octets.length :: window.octets

/-- The bit of a type in its window, counted from the highest bit of the first octet. -/
def hasTypeBit (octets : List UInt8) (low : ℕ) :
    Bool := (octets.getD (low / 8) 0).toNat.testBit (7 - low % 8)

/-- A set of types, by windows with increasing numbers. -/
@[ext]
structure TypeBitMap where
  windows : List TypeWindow
  sorted : windows.Pairwise fun a b => a.number < b.number

namespace TypeBitMap

def wire (bitMap : TypeBitMap) : List UInt8 := bitMap.windows.flatMap TypeWindow.wire

def types (bitMap : TypeBitMap) (rrType : UInt16) : Bool :=
  bitMap.windows.any fun window =>
    window.number == (rrType >>> 8).toUInt8 && hasTypeBit window.octets (rrType.toNat % 256)

end TypeBitMap

theorem TypeWindow.length_pos (window : TypeWindow) : 0 < window.octets.length := by
  have hlast := window.last_ne_zero
  cases hoctets : window.octets with
  | nil => simp [hoctets] at hlast
  | cons => simp

theorem TypeWindow.toNat_length (window : TypeWindow) :
    (UInt8.ofNat window.octets.length).toNat = window.octets.length := by
  have := window.length_le
  exact toNat_ofNat_of_lt' (show _ < 256 by omega)

section Checking

variable {bytes rest : List UInt8} {offset : ℕ} {lastWindow : Option UInt8} {window len : UInt8}

theorem validateTypeBitMapsLoop_cons (h : bytes.drop offset = window :: len :: rest) :
    validateTypeBitMapsLoop bytes offset lastWindow = .ok () ↔
      (0 < len.toNat ∧ len.toNat ≤ 32 ∧ len.toNat ≤ rest.length) ∧
      (∀ last ∈ lastWindow, last < window) ∧
        rest.getD (len.toNat - 1) 0 ≠ 0 ∧
          validateTypeBitMapsLoop bytes (offset + 2 + len.toNat) (some window) = .ok () := by
  have hat : ∀ i, bytes.getD (offset + i) 0 = (window :: len :: rest).getD i 0 := by
    intro i
    rw [← h, getD_eq_getElem?_getD, getD_eq_getElem?_getD, List.getElem?_drop]
  have hlength : bytes.length = offset + 2 + rest.length := by
    have := congrArg List.length h
    simp only [length_drop, length_cons] at this
    omega
  have hwindow : bytes.getD offset 0 = window := hat 0
  have hlen : bytes.getD (offset + 1) 0 = len := hat 1
  rw [validateTypeBitMapsLoop, if_pos (by omega), if_neg (by omega), hwindow, hlen]
  by_cases hfits : len.toNat = 0 ∨ 32 < len.toNat ∨ bytes.length < offset + 2 + len.toNat
  · rw [if_pos hfits]
    exact iff_of_false nofun fun h => by omega
  · have hlast : bytes.getD (offset + 2 + len.toNat - 1) 0 = rest.getD (len.toNat - 1) 0 := by
      rw [show offset + 2 + len.toNat - 1 = offset + (len.toNat - 1 + 2) by omega]
      exact hat _
    rw [if_neg hfits, hlast, and_iff_right (by omega)]
    have hany : lastWindow.any (fun last => decide (window ≤ last)) = true ↔ ¬ ∀ last ∈ lastWindow,
        last < window := by
      cases lastWindow <;> simp
    by_cases habove : ∀ last ∈ lastWindow, last < window
    · rw [if_neg (mt hany.mp (not_not.mpr habove)), and_iff_right habove]
      split
      next hzero => exact iff_of_false nofun fun h => h.1 hzero
      next hne => rw [and_iff_right hne]
    · rw [if_pos (hany.mpr habove)]
      exact iff_of_false nofun fun h => habove h.1

/-- The loop accepts what is left exactly when it is written by windows with numbers that
go on increasing. -/
theorem validateTypeBitMapsLoop_ok_iff : validateTypeBitMapsLoop bytes offset lastWindow = .ok () ↔
      ∃ windows : List TypeWindow, windows.Pairwise (fun a b => a.number < b.number) ∧
        (∀ window ∈ windows, ∀ last ∈ lastWindow, last < window.number) ∧
        bytes.drop offset = windows.flatMap TypeWindow.wire := by
  induction hleft : bytes.length - offset using Nat.strong_induction_on generalizing offset
      lastWindow with
  | _ left ih =>
    rcases hdrop : bytes.drop offset with _ | ⟨window, _ | ⟨len, rest⟩⟩
    · rw [validateTypeBitMapsLoop, if_neg (by simpa using drop_eq_nil_iff.mp hdrop)]
      exact iff_of_true rfl ⟨[], by simp⟩
    · have hlen := congrArg List.length hdrop
      simp only [length_drop, length_singleton] at hlen
      rw [validateTypeBitMapsLoop, if_pos (by omega), if_pos (by omega)]
      refine iff_of_false nofun ?_
      rintro ⟨_ | ⟨first, windows⟩, -, -, hwire⟩ <;> simp [TypeWindow.wire] at hwire
    · have hlen := congrArg List.length hdrop
      simp only [length_drop, length_cons] at hlen
      have hrest : bytes.drop (offset + 2 + len.toNat) = rest.drop len.toNat := by
        rw [show offset + 2 + len.toNat = offset + (len.toNat + 2) by omega, ← drop_drop, hdrop]
        rfl
      rw [validateTypeBitMapsLoop_cons hdrop, ih _ (by omega) rfl, hrest]
      constructor
      · rintro ⟨⟨hpos, hle, hfits⟩, hlast, hne, windows, hsorted, habove, hwire⟩
        have hlengthTake : (rest.take len.toNat).length = len.toNat := by simpa using hfits
        let first : TypeWindow := ⟨window, rest.take len.toNat, hlengthTake.trans_le hle, by
          rw [hlengthTake, getD_eq_getElem?_getD, List.getElem?_take_of_lt (by omega)]
          rwa [← getD_eq_getElem?_getD]⟩
        refine ⟨first :: windows,
          pairwise_cons.mpr ⟨fun other hother => habove other hother window rfl, hsorted⟩, ?_, ?_⟩
        · rintro other hother last hlast'
          rcases mem_cons.mp hother with rfl | hother
          · exact hlast last hlast'
          · exact UInt8.lt_trans (hlast last hlast') (habove other hother window rfl)
        · rw [flatMap_cons, ← hwire, TypeWindow.wire]
          rw [hlengthTake, UInt8.ofNat_toNat, cons_append, cons_append, take_append_drop]
      · rintro ⟨_ | ⟨first, windows⟩, hsorted, habove, hwire⟩
        · simp at hwire
        · rw [flatMap_cons, TypeWindow.wire, cons_append, cons_append] at hwire
          obtain ⟨rfl, htail⟩ := List.cons.inj hwire
          obtain ⟨rfl, rfl⟩ := List.cons.inj htail
          obtain ⟨hfirst, hsorted⟩ := pairwise_cons.mp hsorted
          have hpos := first.length_pos
          rw [first.toNat_length, drop_left, getD_append _ _ _ _ (by omega)]
          exact ⟨⟨hpos, first.length_le, by simp⟩, habove first (mem_cons_self ..),
            first.last_ne_zero, windows, hsorted, fun other hother last hlast => by
              obtain rfl : first.number = last := by simpa using hlast
              exact hfirst other hother, rfl⟩

theorem validateTypeBitMaps_ok_iff (bytes : List UInt8) (allowEmpty : Bool) :
    validateTypeBitMaps bytes allowEmpty = .ok () ↔
      ∃ bitMap : TypeBitMap, bitMap.wire = bytes ∧ (bitMap.windows = [] → allowEmpty = true) := by
  have hloop : validateTypeBitMapsLoop bytes 0 none = .ok () ↔ ∃ bitMap : TypeBitMap,
      bitMap.wire = bytes := by
    rw [validateTypeBitMapsLoop_ok_iff]
    exact ⟨fun ⟨windows, hsorted, _, hwire⟩ => ⟨⟨windows, hsorted⟩, hwire.symm⟩,
      fun ⟨bitMap, hwire⟩ => ⟨bitMap.windows, bitMap.sorted, nofun, hwire.symm⟩⟩
  have hempty : ∀ bitMap : TypeBitMap, bitMap.wire = [] ↔ bitMap.windows = [] := by
    rintro ⟨_ | ⟨first, windows⟩, hsorted⟩ <;> simp [TypeBitMap.wire, TypeWindow.wire]
  unfold validateTypeBitMaps
  cases bytes with
  | nil =>
    simp only [hempty, isEmpty_nil, if_true]
    cases allowEmpty with
    | true => exact iff_of_true rfl ⟨⟨[], .nil⟩, rfl, fun _ => rfl⟩
    | false => exact iff_of_false nofun fun ⟨_, hnil, hallow⟩ => nomatch hallow hnil
  | cons first rest =>
    rw [if_neg (by simp), hloop]
    refine exists_congr fun bitMap => (and_iff_left_of_imp fun hwire hnil => ?_).symm
    rw [(hempty bitMap).mpr hnil] at hwire
    cases hwire

end Checking

section Searching

variable {rrType : UInt16}

theorem octet_and_mask (octet : UInt8) (rrType : UInt16) :
    (octet &&& (1 <<< (7 - (rrType &&& 7)).toUInt8) != 0) = octet.toNat.testBit
      (7 - rrType.toNat % 8) := by
  have hlow : (rrType &&& 7).toNat = rrType.toNat % 8 := and_two_pow_sub_one_eq_mod rrType.toNat 3
  have hseven : (7 - (rrType &&& 7)).toUInt8.toNat = 7 - rrType.toNat % 8 := by
    rw [UInt16.toNat_toUInt8,
      UInt16.toNat_sub_of_le _ _ (by rw [UInt16.le_iff_toNat_le, hlow]; simp; omega), hlow]
    simp
    omega
  have hmask : (1 <<< (7 - (rrType &&& 7)).toUInt8 : UInt8).toNat = 2 ^ (7 - rrType.toNat % 8) := by
    have hlt : 7 - rrType.toNat % 8 < 8 := by omega
    rw [UInt8.toNat_shiftLeft, hseven, mod_eq_of_lt hlt, UInt8.toNat_one, one_shiftLeft]
    exact Nat.mod_eq_of_lt (Nat.pow_lt_pow_right (by omega) hlt)
  rw [Bool.eq_iff_iff, bne_iff_ne, ne_eq, ← UInt8.toNat_inj, UInt8.toNat_and, hmask, and_two_pow]
  cases octet.toNat.testBit (7 - rrType.toNat % 8) <;> simp

theorem typeBitmapLoop_wire {windows : List TypeWindow}
    (hsorted : windows.Pairwise fun a b => a.number < b.number)
    {previousWindow : Option UInt8}
    (habove : ∀ window ∈ windows, ∀ previous ∈ previousWindow, previous < window.number) :
    typeBitmapLoop rrType (windows.flatMap TypeWindow.wire) previousWindow =
      some (TypeBitMap.types ⟨windows, hsorted⟩ rrType) := by
  induction windows generalizing previousWindow with
  | nil => rw [flatMap_nil, typeBitmapLoop]; rfl
  | cons first windows ih =>
    obtain ⟨hfirst, hrest⟩ := pairwise_cons.mp hsorted
    have hprev : previousWindow.any (fun previous => decide (first.number ≤ previous)) =
        false := by
      have hfirst := habove first (mem_cons_self ..)
      cases previousWindow <;> simp_all
    have hpos := first.length_pos
    have hle := first.length_le
    have hfits : ¬ (first.octets.length = 0 ∨ 32 < first.octets.length ∨
        (first.octets ++ windows.flatMap TypeWindow.wire).length < first.octets.length ∨
        (previousWindow.any fun previous => first.number ≤ previous) = true) := by
      simp only [hprev, Bool.false_eq_true, or_false, length_append]
      omega
    rw [flatMap_cons, TypeWindow.wire, cons_append, cons_append, typeBitmapLoop, first.toNat_length]
    rw [if_neg hfits, TypeBitMap.types, any_cons, drop_left]
    by_cases hnumber : first.number = (rrType >>> 8).toUInt8
    · have hothers : (windows.any fun window =>
          window.number == (rrType >>> 8).toUInt8 && hasTypeBit window.octets
              (rrType.toNat % 256)) = false := by
        rw [any_eq_false]
        intro other hother
        have hne : other.number ≠ (rrType >>> 8).toUInt8 := fun heq =>
          absurd (hfirst other hother) (by simp [hnumber, heq])
        simp [hne]
      have hindex : ((rrType &&& 0xff) >>> 3).toNat = rrType.toNat % 256 / 8 := by
        rw [UInt16.toNat_shiftRight, UInt16.toNat_and, show (0xff : UInt16).toNat =
          2 ^ 8 - 1 from rfl, and_two_pow_sub_one_eq_mod, shiftRight_eq_div_pow]
        rfl
      rw [if_pos hnumber, hothers, Bool.or_false, beq_iff_eq.mpr hnumber, Bool.true_and, hindex,
        hasTypeBit, show rrType.toNat % 256 % 8 = rrType.toNat % 8 by omega]
      congr 1
      by_cases hin : rrType.toNat % 256 / 8 < first.octets.length
      · rw [List.getElem?_append_left hin, List.getElem?_eq_getElem hin, getD_eq_getElem _ _ hin]
        simp only [octet_and_mask, hin, decide_true, Bool.true_and]
      · rw [getD_eq_default _ _ (by omega)]
        split <;> simp [hin]
    · rw [if_neg hnumber, ih hrest fun other hother previous heq => by
        obtain rfl : first.number = previous := by simpa using heq
        exact hfirst other hother]
      simp [hnumber, TypeBitMap.types]

end Searching

section Writing

theorem getD_rdropWhile_zero (octets : List UInt8) (i : ℕ) :
    (octets.rdropWhile (· == 0)).getD i 0 = octets.getD i 0 := by
  induction octets using List.reverseRecOn with
  | nil => rfl
  | append_singleton octets last ih =>
    rw [rdropWhile_concat]
    split
    next hzero => grind
    · rfl

theorem last_rdropWhile_zero {octets : List UInt8} (h : octets.rdropWhile (· == 0) ≠ []) :
    (octets.rdropWhile (· == 0)).getD ((octets.rdropWhile (· == 0)).length - 1) 0 ≠ 0 := by
  rw [getD_eq_getElem _ _ (sub_one_lt (length_eq_zero_iff.not.mpr h)), ← getLast_eq_getElem h]
  simpa using rdropWhile_last_not _ _ h

variable (types : UInt16 → Bool) (number : UInt8)

def windowBits : List UInt8 :=
  (List.range 32).map fun octet => UInt8.ofNat (Nat.ofBits fun bit : Fin 8 =>
    types (UInt16.ofNat (number.toNat * 256 + octet * 8 + (7 - bit))))

theorem hasTypeBit_windowBits {low : ℕ} (hlow : low < 256) :
    hasTypeBit ((windowBits types number).rdropWhile (· == 0)) low =
      types (UInt16.ofNat (number.toNat * 256 + low)) := by
  rw [hasTypeBit, getD_rdropWhile_zero, windowBits, getD_eq_getElem?_getD, List.getElem?_map,
    List.getElem?_range (by omega), Option.map_some, Option.getD_some,
    toNat_ofNat_of_lt' (ofBits_lt_two_pow _), testBit_ofBits_lt _ _ (by omega)]
  refine congrArg (fun value => types (UInt16.ofNat value)) ?_
  dsimp only
  omega

def TypeBitMap.windowAt : Option TypeWindow :=
  if h : (windowBits types number).rdropWhile (· == 0) = [] then none
  else some ⟨number, (windowBits types number).rdropWhile (· == 0),
    (IsPrefix.length_le <| rdropWhile_prefix _ _).trans_eq (by simp [windowBits]),
    last_rdropWhile_zero h⟩

theorem TypeBitMap.windowAt_eq_some {types : UInt16 → Bool} {number : UInt8} {window : TypeWindow}
    (h : windowAt types number = some window) :
    window.number = number ∧ window.octets = (windowBits types number).rdropWhile (· == 0) := by
  unfold windowAt at h
  split at h
  · cases h
  · cases h
    exact ⟨rfl, rfl⟩

def TypeBitMap.ofTypes : TypeBitMap where
  windows := (List.range 256).filterMap fun number => windowAt types (UInt8.ofNat number)
  sorted := by
    refine pairwise_filterMap.mpr (pairwise_lt_range.imp_of_mem ?_)
    intro a b ha hb hlt first hfirst second hsecond
    rw [(windowAt_eq_some hfirst).1, (windowAt_eq_some hsecond).1, lt_iff_toNat_lt,
      toNat_ofNat_of_lt' (mem_range.mp ha), toNat_ofNat_of_lt' (mem_range.mp hb)]
    exact hlt

theorem toNat_high (rrType : UInt16) : (rrType >>> 8).toUInt8.toNat = rrType.toNat / 256 := by
  have := rrType.toNat_lt
  simp
  omega

theorem high_low {low : ℕ} (hlow : low < 256) :
    (UInt16.ofNat (number.toNat * 256 + low) >>> 8).toUInt8 = number ∧
      (UInt16.ofNat (number.toNat * 256 + low)).toNat % 256 = low := by
  have hnumber := number.toNat_lt
  have hvalue : (UInt16.ofNat (number.toNat * 256 + low)).toNat = number.toNat * 256 + low :=
    UInt16.toNat_ofNat_of_lt' (show _ < 65536 by omega)
  refine ⟨UInt8.toNat_inj.mp ?_, by omega⟩
  rw [toNat_high, hvalue]
  omega

theorem ofNat_high_low (rrType : UInt16) :
    UInt16.ofNat ((rrType >>> 8).toUInt8.toNat * 256 + rrType.toNat % 256) = rrType := by
  rw [toNat_high, show rrType.toNat / 256 * 256 + rrType.toNat % 256 = rrType.toNat by omega,
    UInt16.ofNat_toNat]

namespace TypeBitMap

theorem types_of_mem {bitMap : TypeBitMap} {window : TypeWindow} (h : window ∈ bitMap.windows)
    {low : ℕ} (hlow : low < 256) :
    bitMap.types (UInt16.ofNat (window.number.toNat * 256 + low)) =
      hasTypeBit window.octets low := by
  have hnodup : (bitMap.windows.map TypeWindow.number).Nodup :=
    pairwise_map.mpr (bitMap.sorted.imp UInt8.ne_of_lt)
  obtain ⟨hhigh, hlowEq⟩ := high_low window.number hlow
  rw [Bool.eq_iff_iff, types, any_eq_true, hhigh, hlowEq]
  constructor
  · rintro ⟨other, hother, hbit⟩
    rw [Bool.and_eq_true, beq_iff_eq] at hbit
    rw [← inj_on_of_nodup_map hnodup hother h hbit.1]
    exact hbit.2
  · exact fun hbit => ⟨window, h, by simpa using hbit⟩

theorem types_ofTypes : (ofTypes types).types = types := by
  funext rrType
  have hlow : rrType.toNat % 256 < 256 := mod_lt _ (by omega)
  have hwindow : ∀ window ∈ (ofTypes types).windows, windowAt types window.number =
      some window := by
    intro window hmem
    obtain ⟨number, -, hat⟩ := mem_filterMap.mp hmem
    rw [(windowAt_eq_some hat).1, hat]
  have hbits := hasTypeBit_windowBits types (rrType >>> 8).toUInt8 hlow
  rw [ofNat_high_low] at hbits
  cases hat : windowAt types (rrType >>> 8).toUInt8 with
  | none =>
    have hempty : (windowBits types (rrType >>> 8).toUInt8).rdropWhile (· == 0) = [] := by
      by_contra hne
      simp [windowAt, hne] at hat
    rw [← hbits, hempty, TypeBitMap.types, any_eq_false.mpr]
    · simp [hasTypeBit]
    · intro window hmem hbit
      rw [Bool.and_eq_true, beq_iff_eq] at hbit
      have := hwindow window hmem
      rw [hbit.1, hat] at this
      cases this
  | some window =>
    obtain ⟨hnumber, hoctets⟩ := windowAt_eq_some hat
    have hmem : window ∈ (ofTypes types).windows := by
      refine mem_filterMap.mpr ⟨(rrType >>> 8).toUInt8.toNat, mem_range.mpr (toNat_lt _), ?_⟩
      rw [UInt8.ofNat_toNat, hat]
    have := types_of_mem hmem hlow
    rwa [hnumber, ofNat_high_low, hoctets, hbits] at this

end TypeBitMap

theorem testBit_of_le (octet : UInt8) {bit : ℕ} (h : 8 ≤ bit) : octet.toNat.testBit bit = false :=
  Nat.testBit_lt_two_pow (octet.toNat_lt.trans_le (Nat.pow_le_pow_right (by omega) h))

theorem TypeWindow.octets_eq {left right : TypeWindow}
    (h : ∀ low < 256, hasTypeBit left.octets low = hasTypeBit right.octets low) :
    left.octets = right.octets := by
  have hoctet : ∀ i, left.octets.getD i 0 = right.octets.getD i 0 := by
    intro i
    by_cases hi : i < 32
    · refine UInt8.toNat_inj.mp (eq_of_testBit_eq fun bit => ?_)
      by_cases hbit : bit < 8
      · have hlow := h (i * 8 + (7 - bit)) (by omega)
        rw [hasTypeBit, hasTypeBit, show (i * 8 + (7 - bit)) / 8 = i by omega,
          show 7 - (i * 8 + (7 - bit)) % 8 = bit by omega] at hlow
        exact hlow
      · rw [testBit_of_le _ (by omega), testBit_of_le _ (by omega)]
    · rw [getD_eq_default _ _ (left.length_le.trans (by omega)),
        getD_eq_default _ _ (right.length_le.trans (by omega))]
  have hlen : ∀ {left right : TypeWindow}, (∀ i, left.octets.getD i 0 = right.octets.getD i 0) →
      left.octets.length ≤ right.octets.length := by
    intro left right hoctet
    by_contra hlt
    refine left.last_ne_zero ?_
    rw [hoctet, getD_eq_default _ _ (by omega)]
  refine ext_getElem (le_antisymm (hlen hoctet) (hlen fun i => (hoctet i).symm))
    fun i hleft hright => ?_
  rw [← getD_eq_getElem _ 0 hleft, hoctet, getD_eq_getElem]

theorem TypeWindow.exists_hasTypeBit (window : TypeWindow) :
    ∃ low < 256, hasTypeBit window.octets low = true := by
  have hne : (window.octets.getD (window.octets.length - 1) 0).toNat ≠ 0 := fun hzero =>
    window.last_ne_zero (UInt8.toNat_inj.mp hzero)
  obtain ⟨bit, hbit⟩ := exists_testBit_of_ne_zero hne
  have hpos := window.length_pos
  have hle := window.length_le
  have hlt : bit < 8 := by
    by_contra hge
    rw [testBit_of_le _ (by omega)] at hbit
    cases hbit
  refine ⟨(window.octets.length - 1) * 8 + (7 - bit), by omega, ?_⟩
  rw [hasTypeBit, show ((window.octets.length - 1) * 8 + (7 - bit)) / 8 =
    window.octets.length - 1 by omega,
    show 7 - ((window.octets.length - 1) * 8 + (7 - bit)) % 8 = bit by omega]
  exact hbit

/-- A bit map is known from its types. -/
theorem TypeBitMap.eq_of_types_eq {left right : TypeBitMap} (h : left.types = right.types) :
    left = right := by
  have hmem : ∀ {left right : TypeBitMap}, left.types = right.types → ∀ window ∈ left.windows,
      window ∈ right.windows := by
    intro left right h window hwindow
    obtain ⟨low, hlow, hbit⟩ := window.exists_hasTypeBit
    rw [← types_of_mem hwindow hlow, h, types, any_eq_true, (high_low _ hlow).1] at hbit
    obtain ⟨other, hother, hnumber⟩ := hbit
    rw [Bool.and_eq_true, beq_iff_eq] at hnumber
    have hsame : other = window := TypeWindow.ext hnumber.1 (TypeWindow.octets_eq fun low hlow => by
      rw [← types_of_mem hother hlow, ← types_of_mem hwindow hlow, hnumber.1, h])
    exact hsame ▸ hother
  have hnodup : ∀ bitMap : TypeBitMap, bitMap.windows.Nodup := fun bitMap =>
    bitMap.sorted.imp fun hlt heq => UInt8.ne_of_lt hlt (congrArg TypeWindow.number heq)
  have hperm : left.windows.Perm right.windows :=
    (perm_ext_iff_of_nodup (hnodup left) (hnodup right)).mpr
    fun window => ⟨hmem h window, hmem h.symm window⟩
  exact TypeBitMap.ext (hperm.eq_of_pairwise
    (fun _ _ _ _ hlt hgt => absurd (UInt8.lt_trans hlt hgt) (UInt8.lt_irrefl _))
    left.sorted right.sorted)

end Writing

theorem nsec3TypeBitmapContains_wire (hashAlgorithm flags high low saltLen hashLen : UInt8)
    {salt hash : List UInt8} (hsalt : salt.length = saltLen.toNat)
    (hhash : hash.length = hashLen.toNat) (bitMap : TypeBitMap) (rrType : UInt16) :
    nsec3TypeBitmapContains
        (hashAlgorithm :: flags :: high :: low :: saltLen ::
          (salt ++ hashLen :: (hash ++ bitMap.wire))) rrType =
      some (bitMap.types rrType) := by
  have hparams : nsec3ParamsFromRdata (hashAlgorithm :: flags :: high :: low :: saltLen ::
      (salt ++ hashLen :: (hash ++ bitMap.wire))) = some ⟨hashAlgorithm, Bytes.fromBe16 high low,
      salt⟩ := by
    rw [nsec3ParamsFromRdata, if_neg (by simp [hsalt]), ← hsalt, take_left]
  rw [nsec3TypeBitmapContains, nsec3NextHashAndBitmap, hparams]
  dsimp only
  rw [← drop_drop, show List.drop 5 _ = salt ++ hashLen :: (hash ++ bitMap.wire) from rfl,
    drop_left]
  dsimp only
  rw [if_neg (by simp [hhash]), ← hhash, drop_left]
  exact typeBitmapLoop_wire bitMap.sorted nofun

/-- Exactly the written bit maps are accepted, every set of types has exactly one, and the search
of an NSEC3 record finds exactly its types. -/
theorem typeBitMaps_contract : (∀ bytes allowEmpty, validateTypeBitMaps bytes allowEmpty = .ok () ↔
      ∃ bitMap : TypeBitMap, bitMap.wire = bytes ∧ (bitMap.windows = [] → allowEmpty = true)) ∧
    (∀ types : UInt16 → Bool, ∃! bytes, validateTypeBitMaps bytes true = .ok () ∧
      ∃ bitMap : TypeBitMap, bitMap.wire = bytes ∧ bitMap.types = types) ∧
    ∀ (hashAlgorithm flags high low saltLen hashLen : UInt8) (salt hash : List UInt8),
      salt.length = saltLen.toNat → hash.length = hashLen.toNat →
      ∀ (bitMap : TypeBitMap) (rrType : UInt16),
        nsec3TypeBitmapContains
            (hashAlgorithm :: flags :: high :: low :: saltLen ::
              (salt ++ hashLen :: (hash ++ bitMap.wire))) rrType =
          some (bitMap.types rrType) := by
  refine ⟨validateTypeBitMaps_ok_iff, fun types => ?_, fun _ _ _ _ _ _ _ _ hsalt hhash =>
    nsec3TypeBitmapContains_wire _ _ _ _ _ _ hsalt hhash⟩
  refine ⟨(TypeBitMap.ofTypes types).wire, ⟨?_, _, rfl, TypeBitMap.types_ofTypes types⟩, ?_⟩
  · exact (validateTypeBitMaps_ok_iff _ true).mpr ⟨_, rfl, fun _ => rfl⟩
  · rintro bytes ⟨-, bitMap, rfl, htypes⟩
    rw [TypeBitMap.eq_of_types_eq (htypes.trans (TypeBitMap.types_ofTypes types).symm)]

/-- The types of an NSEC3 record at the apex of a signed zone: A, NS, SOA, RRSIG, DNSKEY. -/
def apexTypes (rrType : UInt16) : Bool := rrType.toNat ∈ [1, 2, 6, 46, 48]

theorem typeBitMaps_contract_apex :
    nsec3TypeBitmapContains
      ([1, 0, 0, 10, 0] ++ (1 :: 7 :: (TypeBitMap.ofTypes apexTypes).wire)) 46 =
      some ((TypeBitMap.ofTypes apexTypes).types 46) :=
  typeBitMaps_contract.2.2 1 0 0 10 0 1 [] [7] rfl rfl (TypeBitMap.ofTypes apexTypes) 46

end BoronDns
