import Mathlib.Algebra.Order.BigOperators.Group.Finset
import Mathlib.Algebra.Order.BigOperators.Group.List
import Mathlib.Algebra.Order.Ring.Nat
import Mathlib.Data.List.AList
import Mathlib.Tactic.Common

/-!
Finite maps as lists of entries without repeated keys. A quantity that is a sum
over the entries changes, when one key is written or removed, by what that key
contributed before and after; maps that agree on every key have the same sums.
-/

namespace AList

open List

variable {K V : Type*} (m : AList (fun _ : K => V)) (f : K → V → ℕ) (k : K) (v : V) (o : Option V)

def values : List V := m.entries.map Sigma.snd

theorem length_keys_empty : 0 = (∅ : AList (fun _ : K => V)).keys.length := rfl

/-- The sum of what the entries contribute. -/
def total : ℕ :=
  (m.entries.map fun e => f e.1 e.2).sum

/-- What a key contributes with the value it may have. -/
def share : ℕ := o.elim 0 (f k)

@[simp] theorem share_none : share f k none = 0 := rfl

@[simp] theorem share_some : share f k (some v) = f k v := rfl

@[simp] theorem total_empty : (∅ : AList (fun _ : K => V)).total f = 0 := rfl

variable [DecidableEq K]

theorem entries_perm_erase :
    m.entries.Perm (((m.lookup k).toList.map fun v => ⟨k, v⟩) ++ (m.erase k).entries) := by
  have key : ∀ l : List ((_ : K) × V), l.NodupKeys →
      l.Perm (((l.dlookup k).toList.map fun v => ⟨k, v⟩) ++ l.kerase k) := by
    intro l hl
    induction l with
    | nil => exact List.Perm.refl _
    | cons e rest ih =>
      obtain ⟨k', v'⟩ := e
      have hrest := (nodupKeys_cons.mp hl).2
      by_cases hk : k = k'
      · subst hk
        rw [dlookup_cons_eq, kerase_cons_eq (by rfl)]
        exact List.Perm.refl _
      · rw [dlookup_cons_ne _ _ hk, kerase_cons_ne hk]
        refine ((ih hrest).cons _).trans ?_
        exact perm_middle.symm
  exact key m.entries m.nodupKeys

theorem values_perm_erase : m.values.Perm ((m.lookup k).toList ++ (m.erase k).values) := by
  have h := (m.entries_perm_erase k).map Sigma.snd
  simpa [values, Function.comp_def] using h

theorem mem_values : v ∈ m.values ↔ ∃ k, m.lookup k = some v := by
  simp only [values, mem_map]
  constructor
  · rintro ⟨⟨k, w⟩, hmem, rfl⟩
    exact ⟨k, AList.mem_lookup_iff.mpr hmem⟩
  · rintro ⟨k, hk⟩
    exact ⟨⟨k, v⟩, AList.mem_lookup_iff.mp hk, rfl⟩

theorem entries_perm_of_lookup {left right : AList (fun _ : K => V)}
    (h : ∀ k, left.lookup k = right.lookup k) : left.entries.Perm right.entries :=
  lookup_ext left.nodupKeys right.nodupKeys fun k v => by
    have hk := h k
    simp only [lookup] at hk
    rw [hk]

theorem values_perm_of_lookup {left right : AList (fun _ : K => V)}
    (h : ∀ k, left.lookup k = right.lookup k) : left.values.Perm right.values := by
  have hentries := (entries_perm_of_lookup h).map Sigma.snd
  simpa [values] using hentries

theorem lookup_insert_ite (wanted : K) :
    (m.insert k v).lookup wanted = if wanted = k then some v else m.lookup wanted := by
  by_cases h : wanted = k
  · subst h
    simp
  · simp [h, lookup_insert_ne]

theorem lookup_erase_ite (wanted : K) :
    (m.erase k).lookup wanted = if wanted = k then none else m.lookup wanted := by
  by_cases h : wanted = k
  · subst h
    simp
  · simp [h, lookup_erase_ne]

/-- Write a value or remove the key. -/
def put : AList (fun _ : K => V) :=
  match o with
  | some v => m.insert k v
  | none => m.erase k

theorem lookup_put (wanted : K) :
    (m.put k o).lookup wanted = if wanted = k then o else m.lookup wanted := by
  cases o with
  | some v => exact m.lookup_insert_ite k v wanted
  | none => exact m.lookup_erase_ite k wanted

theorem lookup_put_self {k : K} {o : Option V} (h : m.lookup k = o) (wanted : K) :
    (m.put k o).lookup wanted = m.lookup wanted := by
  rw [lookup_put]
  split
  next hk => rw [hk, h]
  · rfl

theorem mem_keys_iff_lookup {m : AList (fun _ : K => V)} {k : K} :
    k ∈ m.keys ↔ ∃ v, m.lookup k = some v := by
  rw [← mem_keys, ← lookup_isSome, Option.isSome_iff_exists]

/-- Writing exchanges the entry of the key. -/
theorem entries_put_perm : ((m.put k o).entries ++ (m.lookup k).toList.map (Sigma.mk k)).Perm
    (m.entries ++ o.toList.map (Sigma.mk k)) := by
  have hput : (m.put k o).entries = o.toList.map (Sigma.mk k) ++ (m.erase k).entries := by
    cases o <;> rfl
  rw [hput, append_assoc]
  refine perm_append_comm.trans (.append_right _ ?_)
  exact perm_append_comm.trans (m.entries_perm_erase k).symm

theorem length_keys_put :
    (m.put k o).keys.length + (if (m.lookup k).isSome then 1 else 0) = m.keys.length +
      if o.isSome then 1 else 0 := by
  have hlen := (m.entries_put_perm k o).length_eq
  cases hlook : m.lookup k <;> cases o <;> simpa [keys, List.keys, hlook] using hlen

theorem length_keys_insert :
    (m.insert k v).keys.length = m.keys.length + if (m.lookup k).isSome then 0 else 1 := by
  have hlen := m.length_keys_put k (some v)
  rw [put] at hlen
  split at hlen <;> simp_all

theorem total_eq_erase : m.total f = share f k (m.lookup k) + (m.erase k).total f := by
  have h := ((m.entries_perm_erase k).map fun e => f e.1 e.2).sum_eq
  rw [total, total, h]
  cases m.lookup k <;> simp [share]

theorem total_insert : (m.insert k v).total f = f k v + (m.erase k).total f := by
  rfl

theorem total_eq_values {m : AList (fun _ : K => V)} {f : K → V → ℕ} {g : V → ℕ}
    (h : ∀ k v, m.lookup k = some v → f k v = g v) : m.total f = (m.values.map g).sum := by
  rw [total, values, map_map]
  congr 1
  exact map_congr_left fun e he => h e.1 e.2 (mem_lookup_iff.mpr he)

theorem total_eq_filter {m : AList (fun _ : K => V)} {f : K → V → ℕ} {p : V → Bool} {g : V → ℕ}
    (h : ∀ k v, m.lookup k = some v → f k v = if p v then g v else 0) :
    m.total f = ((m.values.filter p).map g).sum := by
  rw [total_eq_values h]
  induction m.values with
  | nil => rfl
  | cons v rest ih => by_cases hv : p v = true <;> simp [hv, ih]

theorem total_eq_countP {m : AList (fun _ : K => V)} {f : K → V → ℕ} {p : V → Bool}
    (h : ∀ k v, m.lookup k = some v → f k v = if p v then 1 else 0) :
    m.total f = m.values.countP p := by
  rw [total_eq_filter h, countP_eq_length_filter]
  simp

/-- A write changes a sum by the shares of its key. -/
theorem total_put : (m.put k o).total f + share f k (m.lookup k) = m.total f + share f k o := by
  have hold := m.total_eq_erase f k
  cases o with
  | some v =>
    have hnew := m.total_insert f k v
    rw [put, share_some]
    omega
  | none =>
    rw [put, share_none]
    omega

theorem total_put_eq : (m.put k o).total f = m.total f - share f k (m.lookup k) + share f k o := by
  have hput := m.total_put f k o
  have hold := m.total_eq_erase f k
  omega

theorem share_le_total : share f k (m.lookup k) ≤ m.total f := by
  have hold := m.total_eq_erase f k
  omega

theorem total_le_of_lookup {k : K} {v : V} (h : m.lookup k = some v) : f k v ≤ m.total f := by
  have := m.total_eq_erase f k
  rw [h, share_some] at this
  omega

theorem total_pos_iff : 0 < m.total f ↔ ∃ k v, m.lookup k = some v ∧ 0 < f k v := by
  constructor
  · intro h
    by_contra hnone
    have hzero : (m.entries.map fun e => f e.1 e.2).sum = 0 := by
      refine sum_eq_zero fun n hn => ?_
      obtain ⟨e, he, rfl⟩ := mem_map.mp hn
      by_contra hne
      exact hnone ⟨e.1, e.2, mem_lookup_iff.mpr he, Nat.pos_of_ne_zero hne⟩
    rw [total, hzero] at h
    exact absurd h (lt_irrefl 0)
  · rintro ⟨k, v, hk, hpos⟩
    exact hpos.trans_le (m.total_le_of_lookup f hk)

theorem total_mono {f g : K → V → ℕ} (h : ∀ k v, m.lookup k = some v → f k v ≤ g k v) :
    m.total f ≤ m.total g :=
  sum_le_sum fun e he => h e.1 e.2 (mem_lookup_iff.mpr he)

theorem total_congr_on {f g : K → V → ℕ} (h : ∀ k v, m.lookup k = some v → f k v = g k v) :
    m.total f = m.total g := by
  rw [total, total, map_congr_left]
  exact fun e he => h e.1 e.2 (mem_lookup_iff.mpr he)

/-- The sum over the entries is the sum of the shares of the keys. -/
theorem total_eq_sum (s : Finset K)
    (h : ∀ k v, m.lookup k = some v → k ∈ s) : m.total f = ∑ k ∈ s, share f k (m.lookup k) := by
  have hkeys : m.total f = (m.keys.map fun k => share f k (m.lookup k)).sum := by
    rw [total, keys, List.keys, map_map]
    congr 1
    refine map_congr_left fun e he => ?_
    rw [Function.comp_apply, mem_lookup_iff.mpr he, share_some]
  rw [hkeys, ← sum_toFinset _ m.keys_nodup]
  refine Finset.sum_subset ?_ ?_
  · intro k hk
    obtain ⟨v, hv⟩ := mem_keys_iff_lookup.mp (mem_toFinset.mp hk)
    exact h k v hv
  · intro k _ hk
    have hnone : m.lookup k = none := by
      rw [lookup_eq_none]
      exact fun hmem => hk (mem_toFinset.mpr hmem)
    rw [hnone, share_none]

theorem total_le_of_share_le {left right : AList (fun _ : K => V)} {f g : K → V → ℕ}
    (h : ∀ k, share f k (left.lookup k) ≤ share g k (right.lookup k)) :
    left.total f ≤ right.total g := by
  have hleft := left.total_eq_sum f (left.keys ++ right.keys).toFinset fun k v hk => by
    simp [mem_keys_iff_lookup.mpr ⟨v, hk⟩]
  have hright := right.total_eq_sum g (left.keys ++ right.keys).toFinset fun k v hk => by
    simp [mem_keys_iff_lookup.mpr ⟨v, hk⟩]
  rw [hleft, hright]
  exact Finset.sum_le_sum fun k _ => h k

theorem total_congr_share {left right : AList (fun _ : K => V)} {f : K → V → ℕ}
    (h : ∀ k, share f k (left.lookup k) = share f k (right.lookup k)) :
    left.total f = right.total f :=
  le_antisymm (total_le_of_share_le fun k => (h k).le) (total_le_of_share_le fun k => (h k).ge)

theorem total_congr {left right : AList (fun _ : K => V)}
    (h : ∀ k, left.lookup k = right.lookup k) (f : K → V → ℕ) : left.total f = right.total f :=
  total_congr_share fun k => by rw [h k]

/-- A map that takes each entry from one of two maps has at most their entries. -/
theorem total_le_add (m left right : AList (fun _ : K => V)) (f : K → V → ℕ)
    (h : ∀ k, m.lookup k = left.lookup k ∨ m.lookup k = right.lookup k) :
    m.total f ≤ left.total f + right.total f := by
  let s := (m.keys ++ (left.keys ++ right.keys)).toFinset
  rw [m.total_eq_sum f s fun k v hk => by simp [s, mem_keys_iff_lookup.mpr ⟨v, hk⟩],
    left.total_eq_sum f s fun k v hk => by simp [s, mem_keys_iff_lookup.mpr ⟨v, hk⟩],
    right.total_eq_sum f s fun k v hk => by simp [s, mem_keys_iff_lookup.mpr ⟨v, hk⟩],
    ← Finset.sum_add_distrib]
  refine Finset.sum_le_sum fun k _ => ?_
  rcases h k with hk | hk
  · rw [hk]
    exact Nat.le_add_right _ _
  · rw [hk]
    exact Nat.le_add_left _ _

/-- Write or remove several keys in turn. -/
def putAll (changes : List (K × Option V)) : AList (fun _ : K => V) :=
  changes.foldl (fun m change => m.put change.1 change.2) m

theorem lookup_putAll_of_notMem (changes : List (K × Option V)) {k : K}
    (h : k ∉ changes.map Prod.fst) : (m.putAll changes).lookup k = m.lookup k := by
  induction changes generalizing m with
  | nil => rfl
  | cons change rest ih =>
    simp only [map_cons, mem_cons, not_or] at h
    exact (ih _ h.2).trans (by rw [lookup_put, if_neg h.1])

variable {changes : List (K × Option V)}

theorem lookup_putAll_of_mem (hdist : (changes.map Prod.fst).Nodup) {k : K}
    {o : Option V} (h : (k, o) ∈ changes) : (m.putAll changes).lookup k = o := by
  induction changes generalizing m with
  | nil => simp at h
  | cons change rest ih =>
    obtain ⟨hfresh, hrest⟩ := nodup_cons.mp hdist
    rcases mem_cons.mp h with rfl | h
    · exact (lookup_putAll_of_notMem _ rest hfresh).trans (by rw [lookup_put, if_pos rfl])
    · exact ih _ hrest h

/-- A loop over distinct writes that looks each key up in the first map keeps what
one write keeps: at its turn the key still has its first value. -/
theorem foldl_putAll_invariant {S : Type*} {step : S → K × Option V → Option V → S}
    {P : S → AList (fun _ : K => V) → Prop} {m : AList (fun _ : K => V)}
    (hdist : (changes.map Prod.fst).Nodup) (hstep : ∀ s later, ∀ change ∈ changes, P s later →
      P (step s change (later.lookup change.1)) (later.put change.1 change.2)) {s : S} (h : P s m) :
    P (changes.foldl (fun s change => step s change (m.lookup change.1)) s) (m.putAll changes) := by
  have key : ∀ (rest : List (K × Option V)) (s : S) (later : AList (fun _ : K => V)),
      (∀ change ∈ rest, change ∈ changes) → (rest.map Prod.fst).Nodup →
      (∀ change ∈ rest, later.lookup change.1 = m.lookup change.1) → P s later →
      P (rest.foldl (fun s change => step s change (m.lookup change.1)) s) (later.putAll rest) := by
    intro rest
    induction rest with
    | nil => exact fun s later _ _ _ hs => hs
    | cons change rest ih =>
      intro s later hmem hnodup hsame hs
      obtain ⟨hfresh, hrest⟩ := nodup_cons.mp hnodup
      refine ih _ _ (fun other hother => hmem other (mem_cons_of_mem _ hother)) hrest ?_ ?_
      · intro other hother
        rw [lookup_put, if_neg, hsame other (mem_cons_of_mem _ hother)]
        exact fun heq => hfresh (mem_map.mpr ⟨other, hother, heq⟩)
      · have hone := hstep s later change (hmem change (mem_cons_self ..)) hs
        rwa [hsame change (mem_cons_self ..)] at hone
  exact key changes s m (fun _ h => h) hdist (fun _ _ => rfl) h

/-- A map on the way from one version to the next: each key has its value of one
of the two. -/
def Between (previous current m : AList (fun _ : K => V)) : Prop :=
  ∀ k, m.lookup k = previous.lookup k ∨ m.lookup k = current.lookup k

theorem Between.put {previous current m : AList (fun _ : K => V)} (h : Between previous current m)
    {k : K} {o : Option V} (ho : current.lookup k = o) : Between previous current (m.put k o) := by
  intro wanted
  rw [lookup_put]
  split
  next hk =>
    rw [hk, ho]
    exact Or.inr rfl
  · exact h wanted

section Places

variable {P α : Type*} {before after : P → Option α}

/-- The search gives the value at the places told and is the same everywhere else. -/
def Moved (before after : P → Option α) (places : P → Prop) (value : Option α) : Prop :=
  ∀ place, (places place → after place = value) ∧ (¬ places place → after place = before place)

theorem moved_of_not {places : P → Prop} (value : Option α) (h : ∀ place, ¬ places place) :
    Moved before before places value :=
  fun place => ⟨fun hplace => absurd hplace (h place), fun _ => rfl⟩

variable {value : Option α}

theorem Moved.congr {places others : P → Prop} (h : Moved before after places value)
    (hsame : ∀ place, places place ↔ others place) : Moved before after others value :=
  fun place => ⟨fun hplace => (h place).1 ((hsame place).mpr hplace),
    fun hplace => (h place).2 fun hother => hplace ((hsame place).mp hother)⟩

theorem Moved.trans {middle : P → Option α} {places others : P → Prop}
    (h : Moved before middle places value) (hnext : Moved middle after others value) :
    Moved before after (fun place => places place ∨ others place) value := by
  intro place
  by_cases hplace : others place
  · exact ⟨fun _ => (hnext place).1 hplace, fun hnot => absurd (Or.inr hplace) hnot⟩
  · rw [(hnext place).2 hplace]
    exact ⟨fun hor => (h place).1 (hor.resolve_right hplace), fun hnot => (h place).2 fun hleft =>
      hnot (Or.inl hleft)⟩

/-- A loop that writes one place after another. -/
theorem moved_foldl {S : Type*} {get : S → P → Option α} {step : S → P → S}
    (hstep : ∀ s place, Moved (get s) (get (step s place)) (· = place) value) (places : List P)
    (s : S) : Moved (get s) (get (places.foldl step s)) (· ∈ places) value := by
  induction places generalizing s with
  | nil => exact moved_of_not value (by simp)
  | cons place rest ih => exact ((hstep s place).trans (ih _)).congr fun at_ => by simp

variable {m : AList (fun _ : K => V)} {k : K} {has : V → P → Prop} {before after : P → Option K}

/-- The search tells for each place the key whose value has it. -/
def Places (has : V → P → Prop) (m : AList (fun _ : K => V)) (get : P → Option K) : Prop :=
  ∀ place k, get place = some k ↔ ∃ v, m.lookup k = some v ∧ has v place

/-- A value is written under a free key, or the value of a key is removed, and so are its places. -/
theorem Places.put (h : Places has m before) {v : V} {o : Option V}
    (hchange : m.lookup k = none ∧ o = some v ∨ m.lookup k = some v ∧ o = none)
    (hunique : ∀ other w, m.lookup other = some w → ∀ place, has w place → has v place → other = k)
    (hmoved : Moved before after (has v) (o.map fun _ => k)) : Places has (m.put k o) after := by
  intro place wanted
  simp only [lookup_put]
  by_cases hplace : has v place
  · rw [(hmoved place).1 hplace]
    by_cases hk : wanted = k
    · rcases hchange with ⟨-, rfl⟩ | ⟨-, rfl⟩
      · simp [hk, hplace]
      · simp [hk]
    · have hnone : ¬ ∃ w, m.lookup wanted = some w ∧ has w place :=
        fun ⟨w, hw, hhas⟩ => hk (hunique wanted w hw place hhas hplace)
      simp only [if_neg hk, hnone, iff_false, Option.map_eq_some_iff, not_exists, not_and]
      exact fun _ _ heq => hk heq.symm
  · rw [(hmoved place).2 hplace, h place wanted]
    by_cases hk : wanted = k
    · subst hk
      rcases hchange with ⟨hold, rfl⟩ | ⟨hold, rfl⟩
      · simp [hold, hplace]
      · simp [hold, hplace]
    · simp only [if_neg hk]

end Places

/-- How a number is stored: zero is not. -/
def stored (number : ℕ) : Option ℕ := if number = 0 then none else some number

theorem stored_zero : stored 0 = none := rfl

theorem stored_of_ne {number : ℕ} (h : number ≠ 0) : stored number = some number := if_neg h

theorem getD_stored (number : ℕ) : (stored number).getD 0 = number := by
  by_cases h : number = 0
  · rw [h, stored_zero]
    rfl
  · rw [stored_of_ne h]
    rfl

theorem stored_isSome_iff (number : ℕ) : (stored number).isSome = true ↔ number ≠ 0 := by
  by_cases h : number = 0
  · simp [h, stored_zero]
  · simp [h, stored_of_ne h]

/-- The table holds the numbers that are not zero. -/
def CountsAre (counts : AList (fun _ : K => ℕ)) (number : K → ℕ) : Prop :=
  ∀ k, counts.lookup k = stored (number k)

variable {counts : AList (fun _ : K => ℕ)} {number : K → ℕ}

theorem CountsAre.congr (h : CountsAre counts number) {other : K → ℕ}
    (heq : ∀ k, number k = other k) : CountsAre counts other :=
  fun k => heq k ▸ h k

/-- One more in the table; `keep` is what the width of the counter makes of it. -/
def countUp (keep : ℕ → ℕ) (counts : AList (fun _ : K => ℕ)) (k : K) : AList (fun _ : K => ℕ) :=
  counts.insert k (keep ((counts.lookup k).getD 0 + 1))

/-- One less in the table, which drops an entry that would become zero. -/
def countDown (counts : AList (fun _ : K => ℕ)) (k : K) : AList (fun _ : K => ℕ) :=
  match counts.lookup k with
  | none => counts
  | some count => if 1 < count then counts.insert k (count - 1) else counts.erase k

variable {keep : ℕ → ℕ}

theorem countsAre_countUp (h : CountsAre counts number) (k : K)
    (hkeep : keep (number k + 1) = number k + 1) :
    CountsAre (countUp keep counts k) fun other => number other + if other = k then 1 else 0 := by
  intro other
  show _ = stored (number other + if other = k then 1 else 0)
  rw [countUp, lookup_insert_ite]
  by_cases hother : other = k
  · rw [if_pos hother, if_pos hother, hother, h k, getD_stored, hkeep,
      stored_of_ne (Nat.succ_ne_zero _)]
  · rw [if_neg hother, if_neg hother, h other, Nat.add_zero]

theorem countsAre_countDown (h : CountsAre counts number) (k : K) :
    CountsAre (countDown counts k) fun other => number other - if other = k then 1 else 0 := by
  intro other
  show _ = stored (number other - if other = k then 1 else 0)
  have hk := h k
  by_cases hzero : number k = 0
  · rw [hzero, stored_zero] at hk
    rw [countDown, hk, h other]
    by_cases hother : other = k
    · rw [hother, hzero, Nat.zero_sub]
    · rw [if_neg hother, Nat.sub_zero]
  · rw [stored_of_ne hzero] at hk
    rw [countDown, hk]
    dsimp only
    split <;> rename_i hone
    · rw [lookup_insert_ite]
      by_cases hother : other = k
      · rw [if_pos hother, if_pos hother, hother, stored_of_ne (by omega)]
      · rw [if_neg hother, if_neg hother, h other, Nat.sub_zero]
    · rw [lookup_erase_ite]
      by_cases hother : other = k
      · rw [if_pos hother, if_pos hother, hother, show number k - 1 = 0 by omega, stored_zero]
      · rw [if_neg hother, if_neg hother, h other, Nat.sub_zero]

theorem countsAre_foldl_countUp (h : CountsAre counts number) (keys : List K)
    (hkeep : ∀ k, ∀ n ≤ number k + keys.countP (· = k), keep n = n) :
    CountsAre (keys.foldl (countUp keep) counts) fun k => number k + keys.countP (· = k) := by
  induction keys generalizing counts number with
  | nil => exact h
  | cons key rest ih =>
    have hcount : ∀ k, (number k + if k = key then 1 else 0) + rest.countP (· = k) =
        number k + (key :: rest).countP (· = k) := by
      intro k
      simp only [countP_cons, decide_eq_true_eq, eq_comm (a := k)]
      omega
    refine (ih (countsAre_countUp h key (hkeep key _ ?_)) fun k n hn =>
      hkeep k n (hcount k ▸ hn)).congr hcount
    rw [← hcount, if_pos rfl]
    exact Nat.le_add_right _ _

theorem countsAre_foldl_countDown (h : CountsAre counts number)
    (keys : List K) :
    CountsAre (keys.foldl countDown counts) fun k => number k - keys.countP (· = k) := by
  induction keys generalizing counts number with
  | nil => exact h
  | cons key rest ih =>
    refine (ih (countsAre_countDown h key)).congr fun k => ?_
    simp only [countP_cons, decide_eq_true_eq, eq_comm (a := k)]
    omega

end AList
