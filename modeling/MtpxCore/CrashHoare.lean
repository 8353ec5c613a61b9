import Mathlib.Tactic.Common

/-! Programs that change a state, may fail, and may be killed between two steps. A triple
states what holds in each of the three cases, so what a killed program leaves behind is part
of its specification. -/
namespace CrashHoare

/-- How a program ends: with a value, with an error, or not at all. -/
inductive Outcome (ε α : Type) where
  | ok (value : α)
  | err (error : ε)
  | died
  deriving DecidableEq, Repr

def CrashM (σ ε α : Type) : Type := σ → Outcome ε α × σ

variable {σ ε ε' α β : Type}

namespace CrashM

def bind (m : CrashM σ ε α) (f : α → CrashM σ ε β) : CrashM σ ε β := fun s =>
  match m s with
  | (.ok a, s) => f a s
  | (.err e, s) => (.err e, s)
  | (.died, s) => (.died, s)

instance : Monad (CrashM σ ε) where
  pure a := fun s => (.ok a, s)
  bind := bind

/-- Ends with an error. -/
def fail (e : ε) : CrashM σ ε α := fun s => (.err e, s)

/-- Runs on after an error, which becomes a value. A killed program does not run on. -/
def attempt (m : CrashM σ ε α) : CrashM σ ε' (Except ε α) := fun s =>
  match m s with
  | (.ok a, s) => (.ok (.ok a), s)
  | (.err e, s) => (.ok (.error e), s)
  | (.died, s) => (.died, s)

def mapError (f : ε → ε') (m : CrashM σ ε α) : CrashM σ ε' α := fun s =>
  match m s with
  | (.ok a, s) => (.ok a, s)
  | (.err e, s) => (.err (f e), s)
  | (.died, s) => (.died, s)

end CrashM

/-- What holds after a value, after an error, and after a kill. -/
structure Post (σ ε α : Type) where
  ok : α → σ → Prop
  err : ε → σ → Prop
  died : σ → Prop

def Post.Meets (Q : Post σ ε α) : Outcome ε α × σ → Prop
  | (.ok a, s) => Q.ok a s
  | (.err e, s) => Q.err e s
  | (.died, s) => Q.died s

/-- From every state with `P`, the program ends as `Q` says. -/
def Triple (P : σ → Prop) (m : CrashM σ ε α) (Q : Post σ ε α) : Prop :=
  ∀ s, P s → Q.Meets (m s)

variable {P P' : σ → Prop} {m : CrashM σ ε α} {Q Q' : Post σ ε α}

theorem Triple.run_ok (h : Triple P m Q) {s s' : σ} {a : α} (hs : P s) (hr : m s = (.ok a, s')) :
    Q.ok a s' := by
  have hmeets := h s hs
  rw [hr] at hmeets
  exact hmeets

theorem Triple.run_err (h : Triple P m Q) {s s' : σ} {e : ε} (hs : P s)
    (hr : m s = (.err e, s')) : Q.err e s' := by
  have hmeets := h s hs
  rw [hr] at hmeets
  exact hmeets

theorem Triple.run_died (h : Triple P m Q) {s s' : σ} (hs : P s) (hr : m s = (.died, s')) :
    Q.died s' := by
  have hmeets := h s hs
  rw [hr] at hmeets
  exact hmeets

/-- Once the first program has returned, the rest is the second. -/
theorem CrashM.bind_of_ok {f : α → CrashM σ ε β} {s s' : σ} {a : α} (hr : m s = (.ok a, s')) :
    (m >>= f) s = f a s' := by
  change CrashM.bind m f s = f a s'
  unfold CrashM.bind
  rw [hr]

/-- One postcondition entails another, case by case. -/
structure Post.Entails (Q Q' : Post σ ε α) : Prop where
  ok : ∀ a s, Q.ok a s → Q'.ok a s
  err : ∀ e s, Q.err e s → Q'.err e s
  died : ∀ s, Q.died s → Q'.died s

theorem Post.Entails.meets (h : Q.Entails Q') {r : Outcome ε α × σ} (hr : Q.Meets r) :
    Q'.Meets r := by
  obtain ⟨o, s⟩ := r
  cases o with
  | ok a => exact h.ok a s hr
  | err e => exact h.err e s hr
  | died => exact h.died s hr

theorem Triple.weaken (h : Triple P m Q) (hp : ∀ s, P' s → P s) (hq : Q.Entails Q') :
    Triple P' m Q' := by
  intro s hs
  exact hq.meets (h s (hp s hs))

theorem Triple.pure {a : α} (h : ∀ s, P s → Q.ok a s) : Triple P (Pure.pure a) Q := h

theorem Triple.fail {e : ε} (h : ∀ s, P s → Q.err e s) : Triple P (CrashM.fail e) Q := h

/-- In sequence, the first program's errors and kills must satisfy the whole postcondition. -/
theorem Triple.bind {f : α → CrashM σ ε β} {R : Post σ ε β} (hm : Triple P m Q)
    (hf : ∀ a, Triple (Q.ok a) (f a) R) (herr : ∀ e s, Q.err e s → R.err e s)
    (hdied : ∀ s, Q.died s → R.died s) : Triple P (m >>= f) R := by
  intro s hs
  have hms := hm s hs
  change R.Meets (CrashM.bind m f s)
  unfold CrashM.bind
  cases hr : m s with
  | mk o s' =>
    rw [hr] at hms
    cases o with
    | ok a => exact hf a s' hms
    | err e => exact herr e s' hms
    | died => exact hdied s' hms

/-- After an attempt the error is a value; there is no error left. -/
def Post.attempted (Q : Post σ ε α) : Post σ ε' (Except ε α) where
  ok r s := match r with
    | .ok a => Q.ok a s
    | .error e => Q.err e s
  err _ _ := False
  died := Q.died

theorem Triple.attempt (h : Triple P m Q) :
    Triple P (CrashM.attempt m : CrashM σ ε' (Except ε α)) Q.attempted := by
  intro s hs
  have hms := h s hs
  unfold CrashM.attempt
  cases hr : m s with
  | mk o s' =>
    rw [hr] at hms
    cases o with
    | ok a => exact hms
    | err e => exact hms
    | died => exact hms

/-- After a renaming of errors, an error is the new name of an old one. -/
def Post.renamed (Q : Post σ ε α) (g : ε → ε') : Post σ ε' α where
  ok := Q.ok
  err e s := ∃ e', e = g e' ∧ Q.err e' s
  died := Q.died

theorem Triple.mapError {g : ε → ε'} (h : Triple P m Q) :
    Triple P (CrashM.mapError g m) (Q.renamed g) := by
  intro s hs
  have hms := h s hs
  unfold CrashM.mapError
  cases hr : m s with
  | mk o s' =>
    rw [hr] at hms
    cases o with
    | ok a => exact hms
    | err e => exact ⟨e, rfl, hms⟩
    | died => exact hms

/-- A precondition may be split over a value that is not part of the state. -/
theorem Triple.exists {ι : Type} {P : ι → σ → Prop} (h : ∀ i, Triple (P i) m Q) :
    Triple (fun s => ∃ i, P i s) m Q := by
  rintro s ⟨i, hs⟩
  exact h i s hs

/-- A fact that is not about the state may be assumed outright. -/
theorem Triple.given {φ : Prop} (h : φ → Triple P m Q) : Triple (fun s => P s ∧ φ) m Q := by
  intro s hs
  exact h hs.2 s hs.1

theorem Triple.or (h : Triple P m Q) (h' : Triple P' m Q) :
    Triple (fun s => P s ∨ P' s) m Q := by
  intro s hs
  rcases hs with hs | hs
  · exact h s hs
  · exact h' s hs

/-- The same holds however the program ends. -/
def Post.always (R : σ → Prop) : Post σ ε α := ⟨fun _ => R, fun _ => R, R⟩

theorem Triple.run_always {R : σ → Prop} (h : Triple P m (Post.always R)) {s s' : σ}
    {o : Outcome ε α} (hs : P s) (hr : m s = (o, s')) : R s' := by
  have hmeets := h s hs
  rw [hr] at hmeets
  cases o with
  | ok a => exact hmeets
  | err e => exact hmeets
  | died => exact hmeets

/-- Both postconditions hold, case by case. -/
def Post.both (Q Q' : Post σ ε α) : Post σ ε α where
  ok a s := Q.ok a s ∧ Q'.ok a s
  err e s := Q.err e s ∧ Q'.err e s
  died s := Q.died s ∧ Q'.died s

theorem Triple.both (h : Triple P m Q) (h' : Triple P m Q') : Triple P m (Q.both Q') := by
  intro s hs
  have hq := h s hs
  have hq' := h' s hs
  revert hq hq'
  generalize m s = r
  intro hq hq'
  obtain ⟨o, s'⟩ := r
  cases o with
  | ok a => exact ⟨hq, hq'⟩
  | err e => exact ⟨hq, hq'⟩
  | died => exact ⟨hq, hq'⟩

/-- Whether it returns or fails, the program leaves `I` as it was; a value it returns meets `R`. -/
def Preserves (I : σ → Prop) (m : CrashM σ ε α) (R : α → Prop) : Prop :=
  Triple I m ⟨fun a s => I s ∧ R a, fun _ => I, fun _ => True⟩

section Keeping

variable {I : σ → Prop} {R R' : α → Prop}

theorem Preserves.weaken (h : Preserves I m R) (hr : ∀ a, R a → R' a) : Preserves I m R' :=
  Triple.weaken h (fun _ hs => hs) ⟨fun a _ ha => ⟨ha.1, hr a ha.2⟩, fun _ _ hs => hs, fun _ hs => hs⟩

theorem Preserves.pure {a : α} (h : R a) : Preserves I (Pure.pure a : CrashM σ ε α) R :=
  Triple.pure fun _ hs => ⟨hs, h⟩

theorem Preserves.fail {e : ε} : Preserves I (CrashM.fail e : CrashM σ ε α) R := Triple.fail fun _ hs => hs

theorem Preserves.bind {S : β → Prop} {f : α → CrashM σ ε β} (hm : Preserves I m R)
    (hf : ∀ a, R a → Preserves I (f a) S) : Preserves I (m >>= f) S :=
  Triple.bind hm (fun a => Triple.given (hf a)) (fun _ _ hs => hs) fun _ hs => hs

/-- A program that keeps `I`, and then one whose specification starts from `I`. -/
theorem Preserves.seq {f : α → CrashM σ ε β} {Q : Post σ ε β} (hm : Preserves I m R)
    (hf : ∀ a, R a → Triple I (f a) Q) (herr : ∀ e s, I s → Q.err e s) (hdied : ∀ s, Q.died s) :
    Triple I (m >>= f) Q :=
  Triple.bind hm (fun a => Triple.given (hf a)) herr fun s _ => hdied s

theorem Preserves.attempt (h : Preserves I m R) :
    Preserves I (CrashM.attempt m : CrashM σ ε' (Except ε α)) (fun r => ∀ a, r = .ok a → R a) := by
  refine Triple.weaken (Triple.attempt h) (fun _ hs => hs) ⟨?_, fun _ _ hs => hs.elim, fun _ hs => hs⟩
  intro r s hs
  cases r with
  | ok a =>
    refine ⟨hs.1, fun b hb => ?_⟩
    cases hb
    exact hs.2
  | error e => exact ⟨hs, fun b hb => absurd hb (by simp)⟩

theorem Preserves.mapError {g : ε → ε'} (h : Preserves I m R) : Preserves I (CrashM.mapError g m) R := by
  refine Triple.weaken (Triple.mapError h) (fun _ hs => hs) ⟨fun _ _ hs => hs, ?_, fun _ hs => hs⟩
  intro e s hs
  obtain ⟨e', -, hs⟩ := hs
  exact hs

/-- However the program ends, killed included, `I` is as it was; a value it returns meets `R`. -/
def Withstands (I : σ → Prop) (m : CrashM σ ε α) (R : α → Prop) : Prop :=
  Triple I m ⟨fun a s => I s ∧ R a, fun _ => I, I⟩

theorem Withstands.weaken (h : Withstands I m R) (hr : ∀ a, R a → R' a) : Withstands I m R' :=
  Triple.weaken h (fun _ hs => hs) ⟨fun a _ ha => ⟨ha.1, hr a ha.2⟩, fun _ _ hs => hs, fun _ hs => hs⟩

theorem Withstands.pure {a : α} (h : R a) : Withstands I (Pure.pure a : CrashM σ ε α) R :=
  Triple.pure fun _ hs => ⟨hs, h⟩

theorem Withstands.fail {e : ε} : Withstands I (CrashM.fail e : CrashM σ ε α) R := Triple.fail fun _ hs => hs

theorem Withstands.bind {S : β → Prop} {f : α → CrashM σ ε β} (hm : Withstands I m R)
    (hf : ∀ a, R a → Withstands I (f a) S) : Withstands I (m >>= f) S :=
  Triple.bind hm (fun a => Triple.given (hf a)) (fun _ _ hs => hs) fun _ hs => hs

theorem Withstands.seq {f : α → CrashM σ ε β} {Q : Post σ ε β} (hm : Withstands I m R)
    (hf : ∀ a, R a → Triple I (f a) Q) (herr : ∀ e s, I s → Q.err e s)
    (hdied : ∀ s, I s → Q.died s) : Triple I (m >>= f) Q :=
  Triple.bind hm (fun a => Triple.given (hf a)) herr hdied

theorem Withstands.attempt (h : Withstands I m R) :
    Withstands I (CrashM.attempt m : CrashM σ ε' (Except ε α)) (fun r => ∀ a, r = .ok a → R a) := by
  refine Triple.weaken (Triple.attempt h) (fun _ hs => hs) ⟨?_, fun _ _ hs => hs.elim, fun _ hs => hs⟩
  intro r s hs
  cases r with
  | ok a =>
    refine ⟨hs.1, fun b hb => ?_⟩
    cases hb
    exact hs.2
  | error e => exact ⟨hs, fun b hb => absurd hb (by simp)⟩

theorem Withstands.mapError {g : ε → ε'} (h : Withstands I m R) : Withstands I (CrashM.mapError g m) R := by
  refine Triple.weaken (Triple.mapError h) (fun _ hs => hs) ⟨fun _ _ hs => hs, ?_, fun _ hs => hs⟩
  intro e s hs
  obtain ⟨e', -, hs⟩ := hs
  exact hs

end Keeping

namespace CrashM

/-! One run, from one state -/

variable {γ : Type} {s s' : σ}

theorem attempt_of_ok {a : α} (h : m s = (.ok a, s')) :
    (attempt m : CrashM σ ε' (Except ε α)) s = (.ok (.ok a), s') := by
  unfold attempt
  rw [h]

theorem mapError_of_ok {g : ε → ε'} {a : α} (h : m s = (.ok a, s')) :
    mapError g m s = (.ok a, s') := by
  unfold mapError
  rw [h]

/-- Programs that go the same way so far go the same way on. -/
theorem bind_congr {m' : CrashM σ ε α} {f : α → CrashM σ ε β} (h : m s = m' s') :
    (m >>= f) s = (m' >>= f) s' := by
  change bind m f s = bind m' f s'
  unfold bind
  rw [h]

theorem bind_assoc (m : CrashM σ ε α) (f : α → CrashM σ ε β) (g : β → CrashM σ ε γ) (s : σ) :
    ((m >>= f) >>= g) s = (m >>= fun a => f a >>= g) s := by
  change bind (bind m f) g s = bind m (fun a => f a >>= g) s
  unfold bind
  cases m s with
  | mk o s' => cases o <;> rfl

theorem mapError_died {g : ε → ε'} (h : mapError g m s = (.died, s')) : m s = (.died, s') := by
  unfold mapError at h
  cases hm : m s with
  | mk o s₁ =>
    rw [hm] at h
    cases o with
    | ok a => exact absurd (congrArg Prod.fst h) (by simp)
    | err e => exact absurd (congrArg Prod.fst h) (by simp)
    | died => exact congrArg (fun s => (Outcome.died, s)) (congrArg Prod.snd h)

/-- From this state the program does not return a value. -/
def Stuck (m : CrashM σ ε α) (s : σ) : Prop := ∀ a s', m s ≠ (.ok a, s')

theorem Stuck.mapError {g : ε → ε'} (h : m.Stuck s) : (mapError g m).Stuck s := by
  intro a s'
  unfold CrashM.mapError
  cases hm : m s with
  | mk o s₁ =>
    cases o with
    | ok a => exact absurd hm (h a s₁)
    | err e => simp
    | died => simp

/-- What follows a program that does not return is not reached. -/
theorem Stuck.bind (h : m.Stuck s) (f : α → CrashM σ ε β) : (m >>= f).Stuck s := by
  intro b s'
  change CrashM.bind m f s ≠ _
  unfold CrashM.bind
  cases hm : m s with
  | mk o s₁ =>
    cases o with
    | ok a => exact absurd hm (h a s₁)
    | err e => simp
    | died => simp

theorem Stuck.bind_died (h : m.Stuck s) {f : α → CrashM σ ε β} (hd : (m >>= f) s = (.died, s')) :
    m s = (.died, s') := by
  change CrashM.bind m f s = _ at hd
  unfold CrashM.bind at hd
  cases hm : m s with
  | mk o s₁ =>
    cases o with
    | ok a => exact absurd hm (h a s₁)
    | err e =>
      rw [hm] at hd
      exact absurd (congrArg Prod.fst hd) (by simp)
    | died =>
      rw [hm] at hd
      exact congrArg (fun s => (Outcome.died, s)) (congrArg Prod.snd hd)

/-- A program that tries another one, and is not killed should that fail, is killed within it. -/
theorem Stuck.attempt_died (h : m.Stuck s) {f : Except ε α → CrashM σ ε' β}
    (herr : ∀ e s', (f (.error e) s').1 ≠ .died) (hd : (attempt m >>= f) s = (.died, s')) :
    m s = (.died, s') := by
  change CrashM.bind _ f s = _ at hd
  unfold CrashM.bind attempt at hd
  cases hm : m s with
  | mk o s₁ =>
    cases o with
    | ok a => exact absurd hm (h a s₁)
    | err e =>
      rw [hm] at hd
      exact absurd (congrArg Prod.fst hd) (herr _ _)
    | died =>
      rw [hm] at hd
      exact congrArg (fun s => (Outcome.died, s)) (congrArg Prod.snd hd)

/-- Whatever state it starts from, the program is not killed. -/
def Survives (m : CrashM σ ε α) : Prop := ∀ s, (m s).1 ≠ .died

theorem Survives.pure (a : α) : (Pure.pure a : CrashM σ ε α).Survives := fun _ h => nomatch h

theorem Survives.fail (e : ε) : (CrashM.fail e : CrashM σ ε α).Survives := fun _ h => nomatch h

theorem Survives.bind (h : m.Survives) {f : α → CrashM σ ε β} (hf : ∀ a, (f a).Survives) :
    (m >>= f).Survives := by
  intro s
  have hm := h s
  change (CrashM.bind m f s).1 ≠ .died
  unfold CrashM.bind
  cases hr : m s with
  | mk o s' =>
    rw [hr] at hm
    cases o with
    | ok a => exact hf a s'
    | err e => simp
    | died => exact absurd rfl hm

theorem Survives.attempt (h : m.Survives) :
    (CrashM.attempt m : CrashM σ ε' (Except ε α)).Survives := by
  intro s
  have hm := h s
  unfold CrashM.attempt
  cases hr : m s with
  | mk o s' =>
    rw [hr] at hm
    cases o with
    | ok a => simp
    | err e => simp
    | died => exact absurd rfl hm

theorem Survives.mapError (h : m.Survives) {g : ε → ε'} : (CrashM.mapError g m).Survives := by
  intro s
  have hm := h s
  unfold CrashM.mapError
  cases hr : m s with
  | mk o s' =>
    rw [hr] at hm
    cases o with
    | ok a => simp
    | err e => simp
    | died => exact absurd rfl hm

end CrashM

end CrashHoare
