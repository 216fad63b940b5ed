import BoronDns.RefreshQueue

/-!
A retransfer that an operator forces. The flag for it is in a cell that the copies of a
transfer plan share: the operator sets it through a copy, and the worker that refreshes the
zone takes it through another one. A reconciliation of the catalog that leaves the transfer
as it is keeps the generation of the plan, but puts a plan with a cell of its own in its place.
-/

namespace BoronDns

open List

/-- A plan; `shape` is what `same_transfer_shape` compares beside the origin. -/
structure ZoneTransferPlan (Shape : Type*) where
  origin : DomainName
  shape : Shape
  generation : ℕ
  requestedAxfr : ℕ
  deriving DecidableEq

/-- The table of the plans, the cells of the flags, and the copies that operators and workers hold.
-/
structure TransferPlans (Shape : Type*) where
  zonesByKey : NameKey → Option (ZoneTransferPlan Shape)
  nextGeneration : ℕ
  cells : List Bool
  held : List (ZoneTransferPlan Shape)

namespace TransferPlans

variable {Shape : Type*} [DecidableEq Shape] (plans : TransferPlans Shape)

def empty : TransferPlans Shape := ⟨fun _ => none, 1, [], []⟩

variable (origin : DomainName)

def get : Option (ZoneTransferPlan Shape) :=
  plans.zonesByKey origin.canonicalKey

def isCurrentPlan (plan : ZoneTransferPlan Shape) : Bool :=
  (plans.get plan.origin).any fun current => current.generation == plan.generation

def store (plan : ZoneTransferPlan Shape) (flag : Bool) : TransferPlans Shape :=
  { plans with cells := plans.cells.set plan.requestedAxfr flag }

def takeRequestedAxfr (plan : ZoneTransferPlan Shape) : Bool × TransferPlans Shape :=
  (plans.cells.getD plan.requestedAxfr false, plans.store plan false)

def assignGeneration (shape : Shape) : ZoneTransferPlan Shape × TransferPlans Shape :=
  (⟨origin, shape, plans.nextGeneration, plans.cells.length⟩,
    { plans with nextGeneration := plans.nextGeneration + 1, cells := plans.cells ++ [false] })

def put (plan : ZoneTransferPlan Shape) : TransferPlans Shape :=
  { plans with zonesByKey := Function.update plans.zonesByKey plan.origin.canonicalKey (some plan) }

def insert (shape : Shape) : TransferPlans Shape :=
  (plans.assignGeneration origin shape).2.put (plans.assignGeneration origin shape).1

def insertPreservingGenerationIfUnchanged (plan : ZoneTransferPlan Shape) : TransferPlans Shape :=
  match plans.get plan.origin with
  | some current =>
    if current.origin = plan.origin ∧ current.shape = plan.shape then
      plans.put { plan with generation := current.generation }
    else plans.insert plan.origin plan.shape
  | none => plans.insert plan.origin plan.shape

/-- The operator's request for a zone, when no other task comes between its parts. -/
def enqueue (zone : DomainName) (reserved force : Bool) :
    Except String Unit × TransferPlans Shape :=
  match plans.get zone with
  | none => (.error "zone has no transfer plan", plans)
  | some plan =>
    if !reserved then (.error "refresh queue is full or closed", plans)
    else if !plans.isCurrentPlan plan then (.error "zone transfer plan changed; retry", plans)
    else (.ok (), if force then plans.store plan true else plans)

end TransferPlans

/-- What the tasks do to the plans. An operator or a worker first gets a copy of the current
plan; later it stores `true` for a forced transfer, or takes the flag when the refresh starts. -/
inductive TransferStep (Shape : Type*)
  | insert (origin : DomainName) (shape : Shape)
  | reconcile (origin : DomainName) (shape : Shape)
  | remove (origin : DomainName)
  | get (origin : DomainName)
  | store (copy : ZoneTransferPlan Shape) (flag : Bool)

namespace TransferPlans

variable {Shape : Type*} [DecidableEq Shape]

def step (plans : TransferPlans Shape) : TransferStep Shape → TransferPlans Shape
  | .insert origin shape => plans.insert origin shape
  | .reconcile origin shape =>
    -- `catalog_member_plan` has numbered the new plan already
    (plans.assignGeneration origin shape).2.insertPreservingGenerationIfUnchanged
      (plans.assignGeneration origin shape).1
  | .remove origin =>
    { plans with zonesByKey := Function.update plans.zonesByKey origin.canonicalKey none }
  | .get origin => { plans with held := plans.held ++ (plans.get origin).toList }
  | .store copy flag => if copy ∈ plans.held then plans.store copy flag else plans

def run (plans : TransferPlans Shape) (steps : List (TransferStep Shape)) : TransferPlans Shape :=
  steps.foldl step plans

end TransferPlans

/-- What a refresh asks of a primary. -/
inductive Exchange
  | soaPoll | ixfr | axfr
  deriving DecidableEq

inductive IxfrOutcome
  | disabled | noQueryId | noSnapshot | nextPrimary | fallback | returned
  deriving DecidableEq

/-- How the dealings with one primary go: the serial it answers, if it does, and whether the
refresh ends with its transfer. -/
structure PrimaryDealings where
  credentials : Bool
  pollQueryId : Bool
  polled : Option UInt32
  ixfr : IxfrOutcome
  axfrQueryId : Bool
  axfrReturned : Bool

variable (primary : PrimaryDealings)

/-- The part of `refresh_zone_from_primaries_with_snapshot` for one primary: what is asked of
it, and whether the refresh ends there. -/
def PrimaryDealings.exchanges (forceAxfr : Bool) (currentSerial : Option UInt32) :
    List Exchange × Bool :=
  let axfr := if primary.axfrQueryId then ([.axfr], primary.axfrReturned) else ([], false)
  if !primary.credentials then ([], false)
  else
    match if forceAxfr then none else currentSerial with
    | none => axfr
    | some serial =>
      if !primary.pollQueryId then ([], false)
      else if !primary.polled.any (serialAfter · serial) then ([.soaPoll], false)
      else
        match primary.ixfr with
        | .disabled | .noSnapshot => (.soaPoll :: axfr.1, axfr.2)
        | .noQueryId => ([.soaPoll], false)
        | .nextPrimary => ([.soaPoll, .ixfr], false)
        | .fallback => (.soaPoll :: .ixfr :: axfr.1, axfr.2)
        | .returned => ([.soaPoll, .ixfr], true)

def refreshExchanges (forceAxfr : Bool) (currentSerial : Option UInt32) :
    List PrimaryDealings → List Exchange
  | [] => []
  | primary :: rest =>
    (primary.exchanges forceAxfr currentSerial).1 ++
      if (primary.exchanges forceAxfr currentSerial).2 then []
      else refreshExchanges forceAxfr currentSerial rest

theorem exchanges_forced (currentSerial : Option UInt32) :
    primary.exchanges true currentSerial =
      if primary.credentials && primary.axfrQueryId then ([.axfr], primary.axfrReturned)
        else ([], false) := by
  cases hcredentials : primary.credentials <;> simp [PrimaryDealings.exchanges, hcredentials]

/-- A forced refresh asks for full transfers only, and for one as soon as a primary can be asked. -/
theorem refreshExchanges_forced (currentSerial : Option UInt32) (primaries : List PrimaryDealings) :
    (∀ exchange ∈ refreshExchanges true currentSerial primaries, exchange = .axfr) ∧
      ((∃ primary ∈ primaries, primary.credentials ∧ primary.axfrQueryId) →
        .axfr ∈ refreshExchanges true currentSerial primaries) := by
  induction primaries with
  | nil => simp [refreshExchanges]
  | cons primary rest ih =>
    rw [refreshExchanges, exchanges_forced]
    by_cases hasked : (primary.credentials && primary.axfrQueryId) = true
    · rw [if_pos hasked]
      refine ⟨fun exchange hmem => ?_, fun _ => by simp⟩
      rcases mem_append.mp hmem with hfirst | hlater
      · simpa using hfirst
      · split at hlater
        · simp at hlater
        · exact ih.1 exchange hlater
    · rw [if_neg hasked]
      refine ⟨by simpa using ih.1, ?_⟩
      rintro ⟨able, hmem, hable⟩
      rcases mem_cons.mp hmem with rfl | hrest
      · simp [hable.1, hable.2] at hasked
      · simpa using ih.2 ⟨able, hrest, hable⟩

namespace TransferPlans

variable {Shape : Type*} {plans : TransferPlans Shape} {plan other : ZoneTransferPlan Shape}
  {generation : ℕ}

/-- The plan is in the table, or someone holds a copy of it. -/
def Known (plans : TransferPlans Shape) (plan : ZoneTransferPlan Shape) : Prop :=
  (∃ key, plans.zonesByKey key = some plan) ∨ plan ∈ plans.held

/-- The step replaces the plan of this generation by another one of it. -/
def Keeps (plans : TransferPlans Shape) (generation : ℕ) : TransferStep Shape → Prop
  | .reconcile origin shape =>
    ∃ current, plans.get origin = some current ∧ (current.origin = origin ∧ current.shape = shape) ∧
      current.generation = generation
  | _ => False

/-- The generation has a cell that no other one has. -/
structure Coherent (plans : TransferPlans Shape) (generation : ℕ) : Prop where
  bounds : ∀ plan, plans.Known plan → plan.generation < plans.nextGeneration ∧
    plan.requestedAxfr < plans.cells.length
  shared : ∃ cell, ∀ plan, plans.Known plan → (plan.generation = generation ↔
    plan.requestedAxfr = cell)

theorem coherent_empty (generation : ℕ) : (empty : TransferPlans Shape).Coherent generation :=
  ⟨fun plan h => by simp [Known, empty] at h, 0, fun plan h => by simp [Known, empty] at h⟩

variable {after : TransferPlans Shape}

/-- At most one plan becomes known: it has a cell of its own, and it is not of the generation
unless that is a new one. -/
theorem Coherent.grow (h : plans.Coherent generation)
    (added : Option (ZoneTransferPlan Shape)) (hknown : ∀ plan, after.Known plan →
      plans.Known plan ∨ plan ∈ added)
    (hgenerations : plans.nextGeneration ≤ after.nextGeneration)
    (hcells : plans.cells.length ≤ after.cells.length)
    (hfresh : ∀ plan ∈ added, plan.generation < after.nextGeneration ∧
      plans.cells.length ≤ plan.requestedAxfr ∧
      plan.requestedAxfr < after.cells.length ∧ (plan.generation = generation →
      plans.nextGeneration ≤ generation)) :
    after.Coherent generation := by
  refine ⟨fun plan hplan => ?_, ?_⟩
  · rcases hknown plan hplan with hold | hadded
    · have hbounds := h.bounds plan hold
      omega
    · exact ⟨(hfresh plan hadded).1, (hfresh plan hadded).2.2.1⟩
  by_cases hnew : ∃ plan ∈ added, plan.generation = generation
  · -- the generation begins with the plan that comes
    obtain ⟨first, hfirst, rfl⟩ := hnew
    refine ⟨first.requestedAxfr, fun plan hplan => ?_⟩
    rcases hknown plan hplan with hold | hadded
    · have hbounds := h.bounds plan hold
      have hcell := hfresh first hfirst
      omega
    · obtain rfl := Option.mem_unique hadded hfirst
      simp
  · obtain ⟨cell, hcell⟩ := h.shared
    refine ⟨if cell < plans.cells.length then cell else after.cells.length, fun plan hplan => ?_⟩
    rcases hknown plan hplan with hold | hadded
    · have hbounds := h.bounds plan hold
      rw [hcell plan hold]
      split <;> omega
    · have hnewcell := hfresh plan hadded
      have hother : plan.generation ≠ generation := fun hsame => hnew ⟨plan, hadded, hsame⟩
      split <;> omega

theorem Coherent.same (h : plans.Coherent generation)
    (hknown : ∀ plan, after.Known plan → plans.Known plan)
    (hgenerations : plans.nextGeneration ≤ after.nextGeneration)
    (hcells : plans.cells.length ≤ after.cells.length) : after.Coherent generation :=
  h.grow none (fun plan hplan => Or.inl (hknown plan hplan)) hgenerations hcells (by simp)

theorem known_put (h : (plans.put other).Known plan) : plans.Known plan ∨ plan ∈ some other := by
  rcases h with ⟨key, hkey⟩ | hcopy
  · by_cases hsame : key = other.origin.canonicalKey
    · exact Or.inr (by simpa [put, hsame] using hkey)
    · exact Or.inl (Or.inl ⟨key, by simpa [put, hsame] using hkey⟩)
  · exact Or.inl (Or.inr hcopy)

theorem Coherent.insert (h : plans.Coherent generation) (origin : DomainName) (shape : Shape) :
    (plans.insert origin shape).Coherent generation := by
  refine h.grow _ (fun plan hplan => known_put hplan) (Nat.le_succ _)
    (by simp [TransferPlans.insert, assignGeneration, put]) ?_
  rintro plan ⟨⟩
  simp only [TransferPlans.insert, assignGeneration, put, length_append, length_singleton]
  omega

variable [DecidableEq Shape]

theorem Coherent.step (h : plans.Coherent generation) {step : TransferStep Shape}
    (hkeeps : ¬ plans.Keeps generation step) : (plans.step step).Coherent generation := by
  cases step with
  | insert origin shape => exact h.insert origin shape
  | reconcile origin shape =>
    have hnumbered : (plans.assignGeneration origin shape).2.Coherent generation :=
      h.same (fun _ => id) (Nat.le_succ _) (by simp [assignGeneration])
    unfold TransferPlans.step insertPreservingGenerationIfUnchanged
    dsimp only
    split
    next current hcur =>
      split
      next hunchanged =>
        have hbounds := h.bounds current (Or.inl ⟨_, hcur⟩)
        have hother : current.generation ≠ generation :=
          fun hsame => hkeeps ⟨current, hcur, hunchanged, hsame⟩
        refine h.grow _ (fun plan hplan => known_put hplan) (Nat.le_succ _)
          (by simp [assignGeneration, put]) ?_
        rintro plan ⟨⟩
        simp only [assignGeneration, put, length_append, length_singleton]
        omega
      · exact hnumbered.insert origin shape
    · exact hnumbered.insert origin shape
  | remove origin =>
    refine h.same (fun plan hplan => hplan.imp_left fun ⟨key, hkey⟩ => ⟨key, ?_⟩) le_rfl le_rfl
    by_cases hsame : key = origin.canonicalKey
    · simp [TransferPlans.step, hsame] at hkey
    · simpa [TransferPlans.step, hsame] using hkey
  | get origin =>
    refine h.same (fun plan hplan => ?_) le_rfl le_rfl
    rcases hplan with htable | hheld
    · exact Or.inl htable
    · rcases mem_append.mp hheld with hold | hnew
      · exact Or.inr hold
      · exact Or.inl ⟨_, Option.mem_toList.mp hnew⟩
  | store copy flag =>
    unfold TransferPlans.step
    dsimp only
    split
    · exact h.same (fun _ => id) le_rfl (by simp [store])
    · exact h

/-- No step of the run replaces a plan of the generation by another one of it. -/
def NeverKeeps (generation : ℕ) : TransferPlans Shape → List (TransferStep Shape) → Prop
  | _, [] => True
  | plans, step :: rest =>
    ¬ plans.Keeps generation step ∧ NeverKeeps generation (plans.step step) rest

variable {steps : List (TransferStep Shape)}

theorem neverKeeps_append {more : List (TransferStep Shape)} :
    NeverKeeps generation plans (steps ++ more) ↔
      NeverKeeps generation plans steps ∧ NeverKeeps generation (plans.run steps) more := by
  induction steps generalizing plans with
  | nil => simp [NeverKeeps, run]
  | cons step rest ih => simp [NeverKeeps, ih, run, and_assoc]

theorem Coherent.run (h : plans.Coherent generation) (hnever : NeverKeeps generation plans steps) :
    (plans.run steps).Coherent generation := by
  induction steps generalizing plans with
  | nil => exact h
  | cons step rest ih => exact ih (h.step hnever.1) hnever.2

/-- The flag is set through a copy that is still held. -/
def Forced (plans : TransferPlans Shape) (plan : ZoneTransferPlan Shape) : Prop :=
  plan ∈ plans.held ∧ plans.cells[plan.requestedAxfr]? = some true

theorem Forced.step (h : plans.Forced plan) {step : TransferStep Shape}
    (hother : ∀ worker ∈ plans.held, step = .store worker false →
      worker.requestedAxfr ≠ plan.requestedAxfr) :
    (plans.step step).Forced plan := by
  obtain ⟨hheld, hflag⟩ := h
  have hlt : plan.requestedAxfr < plans.cells.length := (List.getElem?_eq_some_iff.mp hflag).1
  have hkept (more : List Bool) : (plans.cells ++ more)[plan.requestedAxfr]? = some true := by
    rw [getElem?_append_left hlt]
    exact hflag
  cases step with
  | insert origin shape => exact ⟨hheld, hkept _⟩
  | reconcile origin shape =>
    have hchanged := hkept ([false] ++ [false])
    rw [← append_assoc] at hchanged
    unfold TransferPlans.step insertPreservingGenerationIfUnchanged
    dsimp only
    split
    · split
      · exact ⟨hheld, hkept _⟩
      · exact ⟨hheld, hchanged⟩
    · exact ⟨hheld, hchanged⟩
  | remove origin => exact ⟨hheld, hflag⟩
  | get origin => exact ⟨mem_append_left _ hheld, hflag⟩
  | store copy flag =>
    unfold TransferPlans.step
    dsimp only
    split
    next hcopy =>
      refine ⟨hheld, ?_⟩
      by_cases hsame : copy.requestedAxfr = plan.requestedAxfr
      · cases flag with
        | true => simp [store, hsame, hlt]
        | false => exact absurd hsame (hother copy hcopy rfl)
      · rw [store, getElem?_set_ne hsame]
        exact hflag
    · exact ⟨hheld, hflag⟩

theorem Forced.run (h : plans.Forced plan) (hcoherent : plans.Coherent plan.generation)
    (hnever : NeverKeeps plan.generation plans steps)
    (hother : ∀ worker, worker.generation = plan.generation → .store worker false ∉ steps) :
    (plans.run steps).Forced plan := by
  induction steps generalizing plans with
  | nil => exact h
  | cons step rest ih =>
    refine ih (h.step ?_) (hcoherent.step hnever.1) hnever.2 fun worker hsame hmem =>
      hother worker hsame (mem_cons_of_mem _ hmem)
    rintro worker hheld rfl hcell
    obtain ⟨cell, hshared⟩ := hcoherent.shared
    refine hother worker ?_ mem_cons_self
    rw [hshared worker (Or.inr hheld), hcell, ← hshared plan (Or.inr h.1)]

/-- In a run that replaces no plan of the generation by another one of it: once a copy of the plan
has stored a forced request, the next refresh of the generation takes the flag, and it asks for full
transfers only. A refused request sets no flag. -/
theorem forcedTransfer_kept {before between : List (TransferStep Shape)}
    (hheld : plan ∈ (empty.run before).held)
    (hnever : NeverKeeps plan.generation empty (before ++ .store plan true :: between))
    (hother : ∀ worker, worker.generation = plan.generation → .store worker false ∉ between) :
    (∀ worker ∈ (empty.run (before ++ .store plan true :: between)).held,
      worker.generation = plan.generation →
        ((empty.run (before ++ .store plan true :: between)).takeRequestedAxfr worker).1 = true) ∧
    (∀ currentSerial primaries, (∀ exchange ∈ refreshExchanges true currentSerial primaries,
      exchange = .axfr) ∧ ((∃ primary ∈ primaries, primary.credentials ∧ primary.axfrQueryId) →
        .axfr ∈ refreshExchanges true currentSerial primaries)) ∧
    ∀ (plans : TransferPlans Shape) (zone : DomainName) (reserved force : Bool) (message : String),
      (plans.enqueue zone reserved force).1 = .error message →
      (plans.enqueue zone reserved force).2 = plans := by
  obtain ⟨hbefore, -, hbetween⟩ := neverKeeps_append.mp hnever
  have hcoherent := (coherent_empty plan.generation).run hbefore
  refine ⟨fun worker hworker hsame => ?_, refreshExchanges_forced,
    fun plans zone reserved force message hrefused => ?_⟩
  · have hstored : ((empty.run before).step (.store plan true)).Forced plan := by
      have hbounds := hcoherent.bounds plan (Or.inr hheld)
      unfold TransferPlans.step
      dsimp only
      rw [if_pos hheld]
      exact ⟨hheld, by simp [store, hbounds.2]⟩
    have hsteps : ((empty.run before).step (.store plan true)).Coherent plan.generation :=
      hcoherent.step id
    have hforced := hstored.run hsteps hbetween hother
    obtain ⟨cell, hshared⟩ := (hsteps.run hbetween).shared
    rw [run, foldl_append, foldl_cons] at hworker ⊢
    have hcell : worker.requestedAxfr = plan.requestedAxfr :=
      ((hshared worker (Or.inr hworker)).mp hsame).trans
        ((hshared plan (Or.inr hforced.1)).mp rfl).symm
    show getD _ worker.requestedAxfr false = true
    rw [hcell, getD_eq_getElem?_getD]
    exact congrArg (Option.getD · false) hforced.2
  · unfold enqueue at hrefused ⊢
    split
    · rfl
    · split
      · rfl
      · split
        · rfl
        · simp_all

private def firstPlan : ZoneTransferPlan Unit := ⟨.root, (), 1, 0⟩

theorem forcedTransfer_kept_root :
    ((empty.run [.insert .root (), .get .root, .store firstPlan true, .get .root]).takeRequestedAxfr
      firstPlan).1 = true :=
  (@forcedTransfer_kept _ firstPlan _ [.insert .root (), .get .root] [.get .root] (by decide)
    (by simp [NeverKeeps, Keeps]) (by simp)).1 firstPlan (by decide) rfl

/-- The plan is reconciled after the forced request: the worker gets the same generation with
another cell. -/
theorem forcedTransfer_lost :
    ∃ (before between : List (TransferStep Unit)) (plan worker : ZoneTransferPlan Unit),
      plan ∈ (empty.run before).held ∧ (∀ copy, .store copy false ∉ between) ∧
      worker ∈ (empty.run (before ++ .store plan true :: between)).held ∧
      worker.generation = plan.generation ∧
      (empty.run (before ++ .store plan true :: between)).isCurrentPlan worker = true ∧
      ((empty.run (before ++ .store plan true :: between)).takeRequestedAxfr worker).1 = false :=
  ⟨[.insert .root (), .get .root], [.reconcile .root (), .get .root], firstPlan, ⟨.root, (), 1, 1⟩,
    by decide, by simp, by decide, rfl, by decide, by decide⟩

end TransferPlans

end BoronDns
