import BoronDns.Lib.Bytes

/-!
What a call of checked code gives: a value, an error that it reports, or a stop
of the whole program at an index out of range or an arithmetic overflow. A
computation that never stops the program is said to return; reads and writes of
a buffer return when their range lies in it.
-/

inductive Outcome (ε α : Type) where
  | ok (value : α)
  | error (e : ε)
  | stopped
  deriving DecidableEq

namespace Outcome

open List

variable {ε α β σ τ : Type}

def bind (x : Outcome ε α) (f : α → Outcome ε β) : Outcome ε β :=
  match x with
  | .ok value => f value
  | .error e => .error e
  | .stopped => .stopped

instance : Monad (Outcome ε) where
  pure := .ok
  bind := bind

instance : LawfulMonad (Outcome ε) :=
  LawfulMonad.mk' _ (fun x => by cases x <;> rfl) (fun _ _ => rfl) (fun x _ _ => by cases x <;> rfl)

variable (value : α)

@[simp] theorem pure_eq : (pure value : Outcome ε α) = .ok value := rfl

@[simp] theorem ok_bind (f : α → Outcome ε β) : (Outcome.ok value >>= f) = f value := rfl

@[simp] theorem error_bind (e : ε) (f : α → Outcome ε β) :
    ((Outcome.error e : Outcome ε α) >>= f) = .error e := rfl

@[simp] theorem stopped_bind (f : α → Outcome ε β) :
    ((Outcome.stopped : Outcome ε α) >>= f) = .stopped := rfl

variable {f : α → Outcome ε β}

/-- A value comes out of a sequence exactly when it comes out of both parts. -/
theorem bind_eq_ok_iff {x : Outcome ε α} {result : β} :
    (x >>= f) = .ok result ↔ ∃ value, x = .ok value ∧ f value = .ok result := by
  cases x with
  | ok value => simp
  | error e => simp
  | stopped => simp

theorem exists_mapM {items : List α} (h : ∀ item ∈ items, ∃ result, f item = .ok result) :
    ∃ results, items.mapM f = .ok results := by
  induction items with
  | nil => exact ⟨[], rfl⟩
  | cons item rest ih =>
    obtain ⟨result, hresult⟩ := h item (mem_cons_self ..)
    obtain ⟨results, hresults⟩ := ih fun other hother => h other (mem_cons_of_mem _ hother)
    exact ⟨result :: results, by rw [mapM_cons, hresult, ok_bind, hresults, ok_bind, pure_eq]⟩

theorem forall₂_of_mapM {items : List α} {results : List β}
    (h : items.mapM f = .ok results) :
    List.Forall₂ (fun item result => f item = .ok result) items results := by
  induction items generalizing results with
  | nil =>
    obtain rfl := Outcome.ok.inj h
    exact .nil
  | cons item rest ih =>
    rw [mapM_cons] at h
    obtain ⟨result, hresult, h⟩ := bind_eq_ok_iff.mp h
    obtain ⟨others, hothers, h⟩ := bind_eq_ok_iff.mp h
    obtain rfl := Outcome.ok.inj h
    exact .cons hresult (ih hothers)

def ofExcept {δ : Type} (report : δ → ε) : Except δ α → Outcome ε α
  | .ok value => .ok value
  | .error e => .error (report e)

@[simp] theorem ofExcept_ok {δ : Type} (report : δ → ε) (value : α) :
    ofExcept report (.ok value) = .ok value := rfl

/-- The program is not stopped. -/
def Returns (x : Outcome ε α) : Prop := x ≠ .stopped

theorem returns_error (e : ε) : (Outcome.error e : Outcome ε α).Returns := by simp [Returns]

/-- The computation returns, with a value or an error of the kind that is told. -/
def Gives (errors : ε → Prop) (post : α → Prop) : Outcome ε α → Prop
  | .ok value => post value
  | .error e => errors e
  | .stopped => False

section Gives

variable {errors : ε → Prop} {post : α → Prop} {x y : Outcome ε α}

theorem Gives.returns (h : x.Gives errors post) : x.Returns := by
  rintro rfl
  exact h

theorem Gives.of_ok (h : x.Gives errors post) {value : α} (hx : x = .ok value) : post value := by
  rw [hx] at h
  exact h

theorem Gives.of_error (h : x.Gives errors post) {e : ε} (hx : x = .error e) : errors e := by
  rw [hx] at h
  exact h

theorem gives_of_exists (h : ∃ value, x = .ok value) : x.Gives errors (x = .ok ·) := by
  obtain ⟨value, rfl⟩ := h
  exact rfl

variable {result : α → Prop}

theorem Gives.imp (h : x.Gives errors post) {reported : ε → Prop}
    (herrors : ∀ e, errors e → reported e) (hpost : ∀ value, post value → result value) :
    x.Gives reported result := by
  cases x with
  | ok value => exact hpost value h
  | error e => exact herrors e h
  | stopped => exact h

theorem Gives.mono (h : x.Gives errors post) (hpost : ∀ value, post value → result value) :
    x.Gives errors result :=
  h.imp (fun _ => id) hpost

theorem Gives.bind (h : x.Gives errors post) {f : α → Outcome ε β} {result : β → Prop}
    (hf : ∀ value, post value → (f value).Gives errors result) : (x >>= f).Gives errors result := by
  cases x with
  | ok value => exact hf value h
  | error e => exact h
  | stopped => exact h

theorem gives_ofExcept {δ : Type} {report : δ → ε} (x : Except δ α) (h : ∀ e, errors (report e)) :
    (ofExcept report x).Gives errors (x = .ok ·) := by
  cases x with
  | ok value => exact rfl
  | error e => exact h e

theorem gives_ite {p : Prop} [Decidable p] (hx : p → x.Gives errors post)
    (hy : ¬ p → y.Gives errors post) : (if p then x else y).Gives errors post := by
  split
  · exact hx ‹_›
  · exact hy ‹_›

/-- What each step of a loop keeps holds at its end. -/
theorem gives_foldlM {step : σ → α → Outcome ε σ} {motive : σ → Prop} (items : List α)
    (hstep : ∀ state item, motive state → (step state item).Gives errors motive) {start : σ}
    (h : motive start) : (items.foldlM step start).Gives errors motive := by
  induction items generalizing start with
  | nil => exact h
  | cons item rest ih => exact (hstep start item h).bind fun next hnext => ih hnext

end Gives

/-- Both computations give related values, the same error, or both stop. -/
def Related (R : α → β → Prop) : Outcome ε α → Outcome ε β → Prop
  | .ok left, .ok right => R left right
  | .error left, .error right => left = right
  | .stopped, .stopped => True
  | _, _ => False

section Related

variable {x : Outcome ε α} {R : α → β → Prop} {y : Outcome ε β}

theorem Related.bind {α' β' : Type} {S : α' → β' → Prop} {f : α → Outcome ε α'}
    {g : β → Outcome ε β'} (h : Related R x y)
    (hf : ∀ left right, R left right → Related S (f left) (g right)) :
    Related S (x >>= f) (y >>= g) := by
  cases x with
  | ok left =>
    cases y with
    | ok right => exact hf left right h
    | error e => exact absurd h id
    | stopped => exact absurd h id
  | error e =>
    cases y with
    | ok right => exact absurd h id
    | error other => exact h
    | stopped => exact absurd h id
  | stopped =>
    cases y with
    | ok right => exact absurd h id
    | error e => exact absurd h id
    | stopped => trivial

theorem Related.refl (x : Outcome ε α) : Related Eq x x := by
  cases x with
  | ok value => rfl
  | error e => rfl
  | stopped => trivial

theorem Related.eq {y : Outcome ε α} (h : Related Eq x y) : x = y := by
  cases x <;> cases y <;> simp_all [Related]

theorem Related.ite {p : Prop} [Decidable p] {x' : Outcome ε α} {y' : Outcome ε β}
    (h : p → Related R x y) (h' : ¬ p → Related R x' y') :
    Related R (if p then x else x') (if p then y else y') := by
  split
  · exact h ‹_›
  · exact h' ‹_›

theorem Related.gives {errors : ε → Prop} {post : α → Prop}
    (h : Related R x y) (hx : x.Gives errors post) :
    y.Gives errors fun right => ∃ left, R left right ∧ post left := by
  cases x <;> cases y <;> simp_all [Related, Gives]
  exact ⟨_, h, hx⟩

/-- Two loops whose steps keep a relation keep it to the end. -/
theorem Related.foldlM {R : σ → τ → Prop} {step : σ → α → Outcome ε σ} {other : τ → β → Outcome ε τ}
    {left : List α} {right : List β} (P : α → β → Prop) (hitems : List.Forall₂ P left right)
    (hstep : ∀ s t a b, R s t → P a b → Related R (step s a) (other t b)) {s : σ} {t : τ}
    (h : R s t) : Related R (left.foldlM step s) (right.foldlM other t) := by
  induction hitems generalizing s t with
  | nil => exact h
  | cons hhead _ ih => exact (hstep s t _ _ h hhead).bind fun _ _ hnext => ih hnext

end Related

section Buffers

/-- `bytes[start..stop]`. -/
def slice (items : List α) (start stop : ℕ) : Outcome ε (List α) :=
  if start ≤ stop ∧ stop ≤ items.length then .ok ((items.drop start).take (stop - start))
  else .stopped

/-- `bytes[pos..pos + chunk.len()].copy_from_slice(chunk)`. -/
def write (items : List α) (pos : ℕ) (chunk : List α) : Outcome ε (List α) :=
  if pos + chunk.length ≤ items.length then
    .ok (items.take pos ++ chunk ++ items.drop (pos + chunk.length))
  else .stopped

/-- `u16::from_be_bytes([bytes[pos], bytes[pos + 1]])`. -/
def u16At (bytes : List UInt8) (pos : ℕ) : Outcome ε UInt16 :=
  match bytes[pos]?, bytes[pos + 1]? with
  | some high, some low => .ok (Bytes.fromBe16 high low)
  | _, _ => .stopped

/-- `u32::from_be_bytes` of the four bytes at `pos`. -/
def u32At (bytes : List UInt8) (pos : ℕ) : Outcome ε UInt32 :=
  match bytes[pos]?, bytes[pos + 1]?, bytes[pos + 2]?, bytes[pos + 3]? with
  | some b0, some b1, some b2, some b3 => .ok (Bytes.fromBe32 b0 b1 b2 b3)
  | _, _, _, _ => .stopped

/-- The checked sum of two `u16`. -/
def addU16 (left right : UInt16) : Outcome ε UInt16 :=
  if left.toNat + right.toNat < 65536 then .ok (left + right) else .stopped

/-- The checked difference of two `u16`. -/
def subU16 (left right : UInt16) : Outcome ε UInt16 :=
  if right.toNat ≤ left.toNat then .ok (left - right) else .stopped

theorem slice_eq_ok {items : List α} {start stop : ℕ} (h : start ≤ stop ∧ stop ≤ items.length) :
    (slice items start stop : Outcome ε (List α)) = .ok ((items.drop start).take (stop - start)) :=
  if_pos h

variable {pos : ℕ}

theorem write_eq_ok {items chunk : List α} (h : pos + chunk.length ≤ items.length) :
    (write items pos chunk : Outcome ε (List α)) = .ok
      (items.take pos ++ chunk ++ items.drop (pos + chunk.length)) :=
  if_pos h

variable {bytes : List UInt8}

theorem exists_u16At (h : pos + 2 ≤ bytes.length) :
    ∃ value, (u16At bytes pos : Outcome ε UInt16) = .ok value := by
  unfold u16At
  rw [List.getElem?_eq_getElem (show pos < bytes.length by omega),
    List.getElem?_eq_getElem (show pos + 1 < bytes.length by omega)]
  exact ⟨_, rfl⟩

theorem exists_u32At (h : pos + 4 ≤ bytes.length) :
    ∃ value, (u32At bytes pos : Outcome ε UInt32) = .ok value := by
  unfold u32At
  rw [List.getElem?_eq_getElem (show pos < bytes.length by omega),
    List.getElem?_eq_getElem (show pos + 1 < bytes.length by omega),
    List.getElem?_eq_getElem (show pos + 2 < bytes.length by omega),
    List.getElem?_eq_getElem (show pos + 3 < bytes.length by omega)]
  exact ⟨_, rfl⟩

section Gives

variable {errors : ε → Prop} {items chunk : List α} {start stop : ℕ}
  {left right : UInt16}

theorem gives_u16At (h : pos + 2 ≤ bytes.length) :
    (u16At bytes pos : Outcome ε UInt16).Gives errors
      ((u16At bytes pos : Outcome ε UInt16) = .ok ·) :=
  gives_of_exists (exists_u16At h)

theorem gives_u32At (h : pos + 4 ≤ bytes.length) :
    (u32At bytes pos : Outcome ε UInt32).Gives errors
      ((u32At bytes pos : Outcome ε UInt32) = .ok ·) :=
  gives_of_exists (exists_u32At h)

theorem gives_slice (h : start ≤ stop ∧ stop ≤ items.length) :
    (slice items start stop : Outcome ε (List α)).Gives errors (·.length = stop - start) := by
  rw [slice_eq_ok h]
  show List.length _ = _
  rw [length_take, length_drop]
  omega

theorem gives_write (h : pos + chunk.length ≤ items.length) :
    (write items pos chunk : Outcome ε (List α)).Gives errors (·.length = items.length) := by
  rw [write_eq_ok h]
  show List.length _ = _
  simp only [length_append, length_take, length_drop]
  omega

theorem gives_addU16 (h : left.toNat + right.toNat < 65536) :
    (addU16 left right : Outcome ε UInt16).Gives errors (· = left + right) := by
  rw [addU16, if_pos h]
  exact rfl

theorem gives_subU16 (h : right.toNat ≤ left.toNat) :
    (subU16 left right : Outcome ε UInt16).Gives errors (· = left - right) := by
  rw [subU16, if_pos h]
  exact rfl

end Gives

/-- What stands at a position is what is read there. -/
theorem u16At_of_at {value : UInt16} (h : Bytes.At bytes pos (Bytes.be16 value)) :
    (u16At bytes pos : Outcome ε UInt16) = .ok value := by
  have hfirst : bytes[pos]? = some (UInt8.ofNat (value.toNat / 256)) := h.getElem?
  have hsecond : bytes[pos + 1]? = some (UInt8.ofNat (value.toNat % 256)) :=
    (Bytes.At.right_of_append [UInt8.ofNat (value.toNat / 256)] h).getElem?
  unfold u16At
  rw [hfirst, hsecond]
  exact congrArg Outcome.ok (Bytes.fromBe16_be16 value)

theorem u32At_of_at {value : UInt32} (h : Bytes.At bytes pos (Bytes.be32 value)) :
    (u32At bytes pos : Outcome ε UInt32) = .ok value := by
  have h0 : bytes[pos]? = some (UInt8.ofNat (value.toNat / 16777216)) := h.getElem?
  have h1 : bytes[pos + 1]? = some (UInt8.ofNat (value.toNat / 65536 % 256)) :=
    (Bytes.At.right_of_append [UInt8.ofNat (value.toNat / 16777216)] h).getElem?
  have h2 : bytes[pos + 2]? = some (UInt8.ofNat (value.toNat / 256 % 256)) :=
    (Bytes.At.right_of_append
      [UInt8.ofNat (value.toNat / 16777216), UInt8.ofNat (value.toNat / 65536 % 256)] h).getElem?
  have h3 : bytes[pos + 3]? = some (UInt8.ofNat (value.toNat % 256)) :=
    (Bytes.At.right_of_append [UInt8.ofNat (value.toNat / 16777216),
      UInt8.ofNat (value.toNat / 65536 % 256),
        UInt8.ofNat (value.toNat / 256 % 256)] h).getElem?
  unfold u32At
  rw [h0, h1, h2, h3]
  exact congrArg Outcome.ok (Bytes.fromBe32_be32 value)

variable {chunk : List UInt8}

theorem slice_of_at {stop : ℕ} (h : Bytes.At bytes pos chunk) (hstop : stop = pos + chunk.length)
    (hfits : stop ≤ bytes.length) :
    (slice bytes pos stop : Outcome ε (List UInt8)) = .ok chunk := by
  rw [slice_eq_ok ⟨by omega, hfits⟩, hstop, Nat.add_sub_cancel_left, h.take_drop]

/-- Writing what already stands there changes nothing. -/
theorem write_of_at (h : Bytes.At bytes pos chunk)
    (hfits : pos + chunk.length ≤ bytes.length) :
    (write bytes pos chunk : Outcome ε (List UInt8)) = .ok bytes := by
  rw [write_eq_ok hfits]
  congr 1
  obtain ⟨rest, hrest⟩ := h
  have hdrop : bytes.drop (pos + chunk.length) = rest := by
    rw [← drop_drop, ← hrest, drop_left]
  rw [hdrop, append_assoc, hrest, take_append_drop]

end Buffers

end Outcome
