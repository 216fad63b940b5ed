import BoronDns.ZoneDirectoryRefinement

/-!
Zone selection. Both the scan of the short list and the search of the suffix
index return the visible entry with the most labels among those at or above
the query name, and the parent search does the same strictly above it. The
last theorem states this for the directory after every history of insertions
and removals, together with the agreement of its parts.
-/

namespace BoronDns

open List Option

variable {Snapshot Image Dirty : Type}

/-- `result` is a candidate with the most labels, or there is no candidate. -/
def IsLongestOrigin (candidate : ZoneStoreEntry Snapshot Image Dirty → Prop)
    (result : Option (ZoneStoreEntry Snapshot Image Dirty)) : Prop :=
  match result with
  | some entry => candidate entry ∧
      ∀ other, candidate other → other.origin.labelCount ≤ entry.origin.labelCount
  | none => ∀ entry, ¬ candidate entry

/-- The visible entries whose origin is at or above `qname`. -/
def ServesName (entries : List (ZoneStoreEntry Snapshot Image Dirty)) (qname : DomainName)
    (entry : ZoneStoreEntry Snapshot Image Dirty) : Prop :=
  entry ∈ entries ∧ entry.hidden = false ∧ entry.origin.lowerLabels <:+ qname.lowerLabels

/-- A search through a list that gives candidates with fewer and fewer labels finds
the longest one first. -/
theorem isLongestOrigin_findSome? {α : Type}
    {candidate : ZoneStoreEntry Snapshot Image Dirty → Prop}
    {f : α → Option (ZoneStoreEntry Snapshot Image Dirty)} {list : List α}
    (hsound : ∀ a ∈ list, ∀ entry, f a = some entry → candidate entry)
    (hcomplete : ∀ entry, candidate entry → ∃ a ∈ list, f a = some entry)
    (hsorted : list.Pairwise fun a b => ∀ first second, f a = some first → f b = some second →
      second.origin.labelCount ≤ first.origin.labelCount) :
    IsLongestOrigin candidate (list.findSome? f) := by
  cases hfind : list.findSome? f with
  | none =>
    intro entry hentry
    obtain ⟨a, ha, hf⟩ := hcomplete entry hentry
    rw [List.findSome?_eq_none_iff.mp hfind a ha] at hf
    cases hf
  | some entry =>
    obtain ⟨before, a, after, rfl, hf, hbefore⟩ := List.findSome?_eq_some_iff.mp hfind
    refine ⟨hsound a (by simp) entry hf, fun other hother => ?_⟩
    obtain ⟨b, hb, hfb⟩ := hcomplete other hother
    rcases mem_append.mp hb with hb | hb
    · rw [hbefore b hb] at hfb
      cases hfb
    rcases mem_cons.mp hb with rfl | hb
    · rw [some.inj (hf.symm.trans hfb)]
    · exact (pairwise_cons.mp (pairwise_append.mp hsorted).2.1).1 b hb entry other hf hfb

namespace ZoneDirectory

variable {d : ZoneDirectory (ZoneStoreEntry Snapshot Image Dirty)}
  {entries : List (ZoneStoreEntry Snapshot Image Dirty)}

theorem Describes.suffixGet_eq_some (h : Describes d entries) (labels : List Label)
    (hlabels : ∀ l ∈ labels, l.length ≤ 63) (entry : ZoneStoreEntry Snapshot Image Dirty) :
    d.suffixGet (reverseKey labels) = some entry ↔ entry ∈ entries ∧
      entry.origin.lowerLabels.reverse = labels := by
  unfold suffixGet
  split
  next hexcluded =>
    simp only [reduceCtorEq, false_iff]
    rintro ⟨hmem, rfl⟩
    have := h.keyLengths entry hmem
    rw [canonicalReverseLabelKey_eq, hexcluded] at this
    simp at this
  · exact h.suffixIndex labels hlabels entry

theorem Describes.visibleSuffixGet_eq_some (h : Describes d entries) (labels : List Label)
    (hlabels : ∀ l ∈ labels, l.length ≤ 63) (entry : ZoneStoreEntry Snapshot Image Dirty) :
    d.visibleSuffixGet (reverseKey labels) = some entry ↔
      entry ∈ entries ∧ entry.hidden = false ∧ entry.origin.lowerLabels.reverse = labels := by
  unfold visibleSuffixGet
  rw [filter_eq_some_iff, h.suffixGet_eq_some labels hlabels]
  constructor
  · rintro ⟨⟨hmem, hlabels⟩, hvisible⟩
    exact ⟨hmem, by simpa using hvisible, hlabels⟩
  · rintro ⟨hmem, hvisible, hlabels⟩
    exact ⟨⟨hmem, hlabels⟩, by simpa using hvisible⟩

/-- The candidates of `qname` with at most `bound` labels, most labels first. -/
def searchSuffixes (d : ZoneDirectory (ZoneStoreEntry Snapshot Image Dirty)) (qname : DomainName)
    (bound : ℕ) : Option (ZoneStoreEntry Snapshot Image Dirty) :=
  (List.range (bound + 1)).reverse.findSome? fun i =>
    d.visibleSuffixGet (reverseKey (qname.lowerLabels.reverse.take i))

private theorem suffix_iff_reverse_take (name qname : DomainName) :
    name.lowerLabels <:+ qname.lowerLabels ↔
      name.lowerLabels.reverse = qname.lowerLabels.reverse.take name.labelCount := by
  rw [← reverse_prefix, prefix_iff_eq_take, length_reverse, DomainName.length_lowerLabels]

theorem Describes.searchSuffixes_spec (h : Describes d entries) (qname : DomainName)
    (bound : ℕ) (hbound : bound ≤ qname.labelCount) :
    IsLongestOrigin (fun entry => ServesName entries qname entry ∧
      entry.origin.labelCount ≤ bound) (d.searchSuffixes qname bound) := by
  have hvalid : ∀ i, ∀ l ∈ qname.lowerLabels.reverse.take i, l.length ≤ 63 := fun i l hl =>
    qname.reversed_length_le l (mem_of_mem_take hl)
  have hget := fun i entry => h.visibleSuffixGet_eq_some _ (hvalid i) entry
  -- an entry is found exactly at the index that is its number of labels
  have hcount : ∀ i ∈ (List.range (bound + 1)).reverse,
      ∀ entry : ZoneStoreEntry Snapshot Image Dirty,
      entry.origin.lowerLabels.reverse = qname.lowerLabels.reverse.take i →
      entry.origin.labelCount = i := by
    intro i hi entry hlabels
    have := congrArg List.length hlabels
    simp only [mem_reverse, mem_range, length_reverse, DomainName.length_lowerLabels,
      length_take] at hi this
    omega
  refine isLongestOrigin_findSome? ?_ ?_ ?_
  · intro i hi entry hfound
    obtain ⟨hmem, hvisible, hlabels⟩ := (hget i entry).mp hfound
    have hi' := hcount i hi entry hlabels
    rw [← hi'] at hlabels
    refine ⟨⟨hmem, hvisible, (suffix_iff_reverse_take _ _).mpr hlabels⟩, ?_⟩
    rw [mem_reverse, mem_range] at hi
    omega
  · rintro entry ⟨⟨hmem, hvisible, hsuffix⟩, hle⟩
    exact ⟨_, mem_reverse.mpr (mem_range.mpr (Nat.lt_succ_of_le hle)),
      (hget _ entry).mpr ⟨hmem, hvisible, (suffix_iff_reverse_take _ _).mp hsuffix⟩⟩
  · refine List.Pairwise.imp_of_mem ?_ (pairwise_reverse.mpr pairwise_lt_range)
    intro i j hi hj hlt first second hfirst hsecond
    rw [hcount i hi first ((hget i first).mp hfirst).2.2,
      hcount j hj second ((hget j second).mp hsecond).2.2]
    exact hlt.le

private theorem searchSuffixes_eq_prefixes (d : ZoneDirectory (ZoneStoreEntry Snapshot Image Dirty))
    (qname : DomainName) (bound : ℕ) : ((((List.range bound).map fun i =>
        (reverseKey (qname.lowerLabels.reverse.take (i + 1))).length).reverse.findSome? fun len =>
          d.visibleSuffixGet ((reverseKey qname.lowerLabels.reverse).take len)).or
      (d.visibleSuffixGet [])) = d.searchSuffixes qname bound := by
  unfold searchSuffixes
  rw [range_succ_eq_map, reverse_cons, List.findSome?_append, ← map_reverse,
    ← map_reverse, List.findSome?_map, List.findSome?_map]
  simp only [Function.comp_def, reverseKey_take, Nat.succ_eq_add_one, List.findSome?_singleton,
    take_zero]
  rfl

theorem findInSuffixIndex_eq (d : ZoneDirectory (ZoneStoreEntry Snapshot Image Dirty))
    (qname : DomainName) (hint : Bool) (htruth : qname.LowercaseHint hint) :
    d.findInSuffixIndex qname hint = d.searchSuffixes qname qname.labelCount := by
  unfold findInSuffixIndex
  rw [canonicalReverseLabelKeyWithPrefixes_eq qname hint htruth]
  exact searchSuffixes_eq_prefixes d qname qname.labelCount

theorem Describes.findInSuffixIndex_spec (h : Describes d entries) (qname : DomainName)
    (hint : Bool) (htruth : qname.LowercaseHint hint) :
    IsLongestOrigin (ServesName entries qname) (d.findInSuffixIndex qname hint) := by
  have hspec := h.searchSuffixes_spec qname qname.labelCount (Nat.le_refl _)
  have hbounded : ∀ entry, ServesName entries qname entry →
      entry.origin.labelCount ≤ qname.labelCount := by
    intro entry hserves
    have := hserves.2.2.length_le
    simpa using this
  have hsame : (fun entry => ServesName entries qname entry ∧
      entry.origin.labelCount ≤ qname.labelCount) = ServesName entries qname := by
    funext entry
    exact propext ⟨fun hc => hc.1, fun hserves => ⟨hserves, hbounded entry hserves⟩⟩
  rw [findInSuffixIndex_eq d qname hint htruth, ← hsame]
  exact hspec

theorem Describes.findInSmall_spec (h : Describes d entries) (qname : DomainName)
    (hsmall : entries.length ≤ smallZoneDirectoryLimit) :
    IsLongestOrigin (ServesName entries qname) (d.findInSmall qname) := by
  have hcache := h.small
  rw [if_pos hsmall] at hcache
  have hcand : ∀ entry, entry ∈ d.small →
      ((!entry.hidden && qname.isEqualOrSubdomainOf entry.origin) = true ↔
      ServesName entries qname entry) := by
    intro entry hmem
    simp only [Bool.and_eq_true, Bool.not_eq_true', DomainName.isEqualOrSubdomainOf_iff, ServesName]
    exact ⟨fun hc => ⟨hcache.1.mem_iff.mp hmem, hc⟩, fun hc => hc.2⟩
  unfold findInSmall
  rw [← List.findSome?_guard]
  refine isLongestOrigin_findSome? ?_ ?_ ?_
  · intro entry hmem found hfound
    obtain ⟨rfl, hmatch⟩ := guard_eq_some_iff.mp hfound
    exact (hcand _ hmem).mp hmatch
  · intro entry hserves
    have hmem : entry ∈ d.small := hcache.1.mem_iff.mpr hserves.1
    exact ⟨entry, hmem, guard_eq_some_iff.mpr ⟨rfl, (hcand entry hmem).mpr hserves⟩⟩
  · refine hcache.2.imp fun {a b} hle first second hfirst hsecond => ?_
    obtain ⟨rfl, -⟩ := guard_eq_some_iff.mp hfirst
    obtain ⟨rfl, -⟩ := guard_eq_some_iff.mp hsecond
    rwa [ZoneStoreEntry.mostSpecificFirst, a.originLabelCount_eq, b.originLabelCount_eq] at hle

/-- Distinct origins above one name have different numbers of labels, so the
longest one is determined. -/
theorem Describes.longestOrigin_unique (h : Describes d entries) (qname : DomainName)
    {left right : Option (ZoneStoreEntry Snapshot Image Dirty)}
    (hleft : IsLongestOrigin (ServesName entries qname) left)
    (hright : IsLongestOrigin (ServesName entries qname) right) : left = right := by
  cases left with
  | none =>
    cases right with
    | none => rfl
    | some b => exact absurd hright.1 (hleft b)
  | some a =>
    cases right with
    | none => exact absurd hleft.1 (hright a)
    | some b =>
      have hcount : a.origin.labelCount = b.origin.labelCount :=
        Nat.le_antisymm (hright.2 a hleft.1) (hleft.2 b hright.1)
      have ha := (suffix_iff_reverse_take a.origin qname).mp hleft.1.2.2
      have hb := (suffix_iff_reverse_take b.origin qname).mp hright.1.2.2
      rw [hcount, ← hb] at ha
      have hkey := (a.originKey_eq_iff b).mpr (reverse_injective ha)
      rw [h.distinct a hleft.1.1 b hright.1.1 hkey]

theorem Describes.findBestMatch_spec (h : Describes d entries) (qname : DomainName) (hint : Bool)
    (htruth : qname.LowercaseHint hint) :
    IsLongestOrigin (ServesName entries qname) (d.findBestMatch qname hint) := by
  unfold findBestMatch
  by_cases hempty : d.small.isEmpty = true
  · rw [if_pos hempty]
    exact h.findInSuffixIndex_spec qname hint htruth
  · rw [if_neg hempty]
    apply h.findInSmall_spec qname
    by_contra hlarge
    have hcache := h.small
    rw [if_neg hlarge] at hcache
    simp [hcache] at hempty

/-- The parent search answers only for a visible origin, and then with the
longest visible origin strictly above it. -/
theorem Describes.findParentOfExactMatch_spec (h : Describes d entries) (qname : DomainName)
    (hint : Bool) (htruth : qname.LowercaseHint hint) :
    IsLongestOrigin (fun entry => (∃ exact ∈ entries, exact.hidden = false ∧
        exact.origin.lowerLabels = qname.lowerLabels) ∧
      ServesName entries qname entry ∧ entry.origin.labelCount < qname.labelCount)
      (d.findParentOfExactMatch qname hint) := by
  have hvalid := qname.reversed_length_le
  unfold findParentOfExactMatch
  rw [canonicalReverseLabelKeyWithPrefixes_eq qname hint htruth]
  dsimp only
  split
  next hnone =>
    rintro entry ⟨⟨exact, hmem, -, hlabels⟩, -⟩
    have := (h.suffixGet_eq_some _ hvalid exact).mpr ⟨hmem, by rw [hlabels]⟩
    rw [hnone] at this
    simp at this
  next exact hexact =>
    obtain ⟨hmem, hlabels⟩ := (h.suffixGet_eq_some _ hvalid exact).mp hexact
    have hlower : exact.origin.lowerLabels = qname.lowerLabels := reverse_injective hlabels
    by_cases hhidden : exact.hidden = true
    · rw [if_pos (by simp [hhidden])]
      rintro entry ⟨⟨other, hother, hvisible, heq⟩, -⟩
      have hkey := (other.originKey_eq_iff exact).mpr (heq.trans hlower.symm)
      rw [h.distinct other hother exact hmem hkey, hhidden] at hvisible
      simp at hvisible
    · cases hcount : qname.labelCount with
      | zero =>
        rw [if_pos (by simp)]
        rintro entry ⟨-, -, hlt⟩
        omega
      | succ bound =>
        rw [if_neg (by simp [hhidden, range_succ])]
        have hdrop : ((List.range (bound + 1)).map fun i =>
            (reverseKey (qname.lowerLabels.reverse.take (i + 1))).length).dropLast =
            (List.range bound).map fun i =>
                (reverseKey (qname.lowerLabels.reverse.take (i + 1))).length := by
          simp [range_succ]
        rw [hdrop, searchSuffixes_eq_prefixes d qname bound]
        have hspec := h.searchSuffixes_spec qname bound (by omega)
        have hsame : (fun entry => ServesName entries qname entry ∧
            entry.origin.labelCount ≤ bound) = (fun entry => (∃ exact ∈ entries,
              exact.hidden = false ∧ exact.origin.lowerLabels = qname.lowerLabels) ∧
              ServesName entries qname entry ∧ entry.origin.labelCount < bound + 1) := by
          funext entry
          have hvisible : ∃ exact ∈ entries, exact.hidden = false ∧
              exact.origin.lowerLabels = qname.lowerLabels :=
            ⟨exact, hmem, by simpa using hhidden, hlower⟩
          simp only [hvisible, true_and, Nat.lt_succ_iff]
        rw [← hsame]
        exact hspec

/-- One publication's change to the directory. Every caller stores an entry
under the canonical key of its origin. -/
inductive Change (Snapshot Image Dirty : Type)
  | insert (entry : ZoneStoreEntry Snapshot Image Dirty)
  | remove (key : NameKey)

def applyChange (d : ZoneDirectory (ZoneStoreEntry Snapshot Image Dirty)) :
    Change Snapshot Image Dirty → ZoneDirectory (ZoneStoreEntry Snapshot Image Dirty)
  | .insert entry => d.insert entry.originKey entry
  | .remove key => (d.remove key).1

/-- What a change does to the list of entries. -/
def changeContents (entries : List (ZoneStoreEntry Snapshot Image Dirty)) :
    Change Snapshot Image Dirty → List (ZoneStoreEntry Snapshot Image Dirty)
  | .insert entry => entry :: othersThan entry.originKey entries
  | .remove key => othersThan key entries

variable (changes : List (Change Snapshot Image Dirty))

def run : ZoneDirectory (ZoneStoreEntry Snapshot Image Dirty) :=
  changes.foldl applyChange empty

def contents : List (ZoneStoreEntry Snapshot Image Dirty) :=
  changes.foldl changeContents []

theorem describes_run : Describes (run changes) (contents changes) := by
  induction changes using List.reverseRecOn with
  | nil => exact describes_empty
  | append_singleton changes change ih =>
    rw [run, contents, foldl_append, foldl_append]
    cases change with
    | insert entry => exact ih.insert entry
    | remove key => exact ih.remove key

/-- After any history, the parts of the directory describe one set of entries
and both selections find the longest visible origin. -/
theorem directory_refines_entries (changes : List (Change Snapshot Image Dirty)) :
    let d := run changes
    let entries := contents changes
    (∀ a ∈ entries, ∀ b ∈ entries, a.origin.lowerLabels = b.origin.lowerLabels → a = b) ∧
    (∀ key entry, d.get key = some entry ↔ entry ∈ entries ∧ entry.originKey = key) ∧
    d.values.Perm entries ∧
    (∀ (name : DomainName) (entry : ZoneStoreEntry Snapshot Image Dirty),
      d.suffixGet (canonicalReverseLabelKey name) = some entry ↔
        entry ∈ entries ∧ entry.origin.lowerLabels = name.lowerLabels) ∧
    d.small.Perm (if entries.length ≤ smallZoneDirectoryLimit then entries else []) ∧
    d.len = entries.length ∧
    d.activeCount = (entries.filter fun entry => entry.state = .active ∧
      entry.hidden = false).length ∧
    ∀ (qname : DomainName) (hint : Bool), qname.LowercaseHint hint →
      IsLongestOrigin (ServesName entries qname) (d.findBestMatch qname hint) ∧
      d.findInSuffixIndex qname hint = d.findBestMatch qname hint ∧
      (entries.length ≤ smallZoneDirectoryLimit →
      d.findInSmall qname = d.findBestMatch qname hint) ∧
      IsLongestOrigin (fun entry => (∃ exact ∈ entries, exact.hidden = false ∧
          exact.origin.lowerLabels = qname.lowerLabels) ∧
        ServesName entries qname entry ∧ entry.origin.labelCount < qname.labelCount)
        (d.findParentOfExactMatch qname hint) := by
  intro d entries
  have h : Describes d entries := describes_run changes
  refine ⟨?_, h.byOrigin, h.values, ?_, ?_, h.len, ?_, ?_⟩
  · intro a ha b hb hab
    exact h.distinct a ha b hb ((a.originKey_eq_iff b).mpr hab)
  · intro name entry
    rw [canonicalReverseLabelKey_eq, h.suffixGet_eq_some _ name.reversed_length_le]
    exact and_congr_right fun _ => reverse_inj
  · have hsmall := h.small
    by_cases hlimit : entries.length ≤ smallZoneDirectoryLimit
    · rw [if_pos hlimit] at hsmall ⊢
      exact hsmall.1
    · rw [if_neg hlimit] at hsmall ⊢
      rw [hsmall]
  · rw [h.activeCount, countP_eq_length_filter]
    congr 2
    funext entry
    rw [Bool.eq_iff_iff]
    simp [ZoneStoreEntry.servesQueries]
  · intro qname hint htruth
    have hbest := h.findBestMatch_spec qname hint htruth
    refine ⟨hbest, ?_, ?_, h.findParentOfExactMatch_spec qname hint htruth⟩
    · exact h.longestOrigin_unique qname (h.findInSuffixIndex_spec qname hint htruth) hbest
    · intro hlimit
      exact h.longestOrigin_unique qname (h.findInSmall_spec qname hlimit) hbest

/-- An entry with nothing but what the directory reads. -/
private def bareEntry (labels : List Label) (valid : ∀ label ∈ labels, 0 < label.length ∧
      label.length ≤ 63)
    (hidden : Bool) : ZoneStoreEntry Unit Unit Unit where
  allocation := labels.length
  origin := ⟨labels, valid⟩
  originLabelCount := labels.length
  originKey := DomainName.canonicalKey ⟨labels, valid⟩
  state := .active
  serial := none
  soaTimers := none
  snapshot := ()
  image := none
  imageSnapshot := none
  overlayDirty := none
  hidden := hidden
  incarnation := 1
  originLabelCount_eq := rfl
  originKey_eq := rfl

/-- A visible `a.` and a hidden `b.a.`. -/
private def twoZones : List (Change Unit Unit Unit) :=
  [.insert (bareEntry [[97]] (by decide) false), .insert (bareEntry [[98], [97]] (by decide) true)]

/-- A query below the hidden child is served from the visible parent. -/
theorem directory_refines_entries_two_zones :
    (run twoZones).findInSuffixIndex ⟨[[99], [98], [97]], by decide⟩ true =
      (run twoZones).findBestMatch ⟨[[99], [98], [97]], by decide⟩ true ∧
    ((run twoZones).findBestMatch ⟨[[99], [98], [97]], by decide⟩ true).map
      ZoneStoreEntry.originKey = some [97, 46] :=
  ⟨((directory_refines_entries twoZones).2.2.2.2.2.2.2 ⟨[[99], [98], [97]], by decide⟩ true
    (fun _ => by decide)).2.1, by decide +kernel⟩

end ZoneDirectory

end BoronDns
