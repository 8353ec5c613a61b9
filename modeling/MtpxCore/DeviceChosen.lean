import MtpxCore.DeviceChoice

/-! A command opens the device its flag names, or the one at the picked place, and no other; a
transfer goes on the storage that was picked, and once only. -/
namespace MtpxCore

/-- The device that a selector names in a listing, with its place: the only one, the one at the
place, or the first with the serial. -/
inductive Named (devices : List DeviceSummary) : DeviceSelector → ℕ → DeviceSummary → Prop
  | only {d : DeviceSummary} : devices = [d] → Named devices .only 0 d
  | index {i : ℕ} {d : DeviceSummary} : devices[i]? = some d → Named devices (.index i) i d
  | serial {serial : String} {i : ℕ} {d : DeviceSummary} : devices[i]? = some d →
      d.serial = some serial → (∀ j < i, ∀ e, devices[j]? = some e → e.serial ≠ some serial) →
      Named devices (.serial serial) i d

/-- What a command opens a device by, and the state in which it does: by its flag or, when that lists
several and names none of them, by the place that was picked among them. -/
inductive Asked {ω δ α : Type} (usb : Usb ω δ α) (flag : Option String) (prompts : Bool)
    (pick : List DeviceSummary → Choice) (w : ω) : DeviceSelector → ω → Prop
  | first : (∀ listed w₁, usb.listDevices w = (.ok listed, w₁) → flag = none → listed.length < 2) →
      Asked usb flag prompts pick w (deviceSelector flag) w
  | again {listed : List DeviceSummary} {i : ℕ} {w₁ : ω} : flag = none →
      usb.listDevices w = (.ok listed, w₁) → 2 ≤ listed.length → prompts = true →
      pick listed = .picked i → Asked usb flag prompts pick w (.index i) w₁

/-- Why no device is opened, and the state that this leaves: the choice is left to the user, the bus
is not listed, nothing is attached, what was chosen is not there, or it is not opened. -/
inductive Refused {ω δ α : Type} (usb : Usb ω δ α) (flag : Option String) (prompts : Bool)
    (pick : List DeviceSummary → Choice) (w : ω) : ChoiceError → ω → Prop
  | several {listed : List DeviceSummary} {w₁ : ω} : flag = none →
      usb.listDevices w = (.ok listed, w₁) → 2 ≤ listed.length →
      (prompts = true → pick listed = .dismissed) →
      Refused usb flag prompts pick w (.ambiguousDevice listed) w₁
  | interrupted {listed : List DeviceSummary} {w₁ : ω} : flag = none →
      usb.listDevices w = (.ok listed, w₁) → 2 ≤ listed.length → prompts = true →
      pick listed = .interrupted → Refused usb flag prompts pick w (.raised .cancelled) w₁
  | unlisted {selector : DeviceSelector} {raised : MtpError} {w₀ w₁ : ω} :
      Asked usb flag prompts pick w selector w₀ → usb.listDevices w₀ = (.error raised, w₁) →
      Refused usb flag prompts pick w (.raised (.ofMtp raised)) w₁
  | noDevice {selector : DeviceSelector} {w₀ w₁ : ω} : Asked usb flag prompts pick w selector w₀ →
      usb.listDevices w₀ = (.ok [], w₁) → Refused usb flag prompts pick w .noDevice w₁
  | notFound {selector : DeviceSelector} {devices : List DeviceSummary} {wanted : String} {w₀ w₁ : ω} :
      Asked usb flag prompts pick w selector w₀ → usb.listDevices w₀ = (.ok devices, w₁) →
      devices ≠ [] → (selector = .serial wanted ∨ ∃ i, selector = .index i ∧ wanted = i.repr) →
      (∀ i d, ¬Named devices selector i d) →
      Refused usb flag prompts pick w (.deviceNotFound wanted devices) w₁
  | unopened {selector : DeviceSelector} {devices : List DeviceSummary} {i : ℕ} {d : DeviceSummary}
      {e : ChoiceError} {w₀ w₁ w₂ : ω} : Asked usb flag prompts pick w selector w₀ →
      usb.listDevices w₀ = (.ok devices, w₁) → Named devices selector i d →
      openListed usb devices d w₁ = (.error e, w₂) → Refused usb flag prompts pick w e w₂
  | unloaded {selector : DeviceSelector} {devices : List DeviceSummary} {i : ℕ} {d : DeviceSummary}
      {inner : δ} {e : ChoiceError} {w₀ w₁ w₂ w₃ : ω} : Asked usb flag prompts pick w selector w₀ →
      usb.listDevices w₀ = (.ok devices, w₁) → Named devices selector i d →
      openListed usb devices d w₁ = (.ok inner, w₂) →
      Device.load usb inner d w₂ = (.error e, w₃) → Refused usb flag prompts pick w e w₃

section Selecting

variable {devices : List DeviceSummary} {d : DeviceSummary} {serial : String} {i : ℕ}

theorem selectAt_ok {position : Option ℕ} {wanted : String} :
    selectAt devices position wanted = .ok d ↔ ∃ i, position = some i ∧ devices[i]? = some d := by
  unfold selectAt
  cases position with
  | none => simp
  | some i =>
    cases hi : devices[i]? with
    | none => simp [hi]
    | some e => simp [hi]

theorem selectAt_error {position : Option ℕ} {wanted : String} {e : ChoiceError}
    (h : selectAt devices position wanted = .error e) : e = .deviceNotFound wanted devices := by
  unfold selectAt at h
  split at h
  · exact absurd h (by simp)
  · exact (Except.error.inj h).symm

/-- The first device with a serial. -/
theorem positionOfSerial_some : positionOfSerial devices serial = some i ↔
    ∃ d, devices[i]? = some d ∧ d.serial = some serial ∧
      ∀ j < i, ∀ e, devices[j]? = some e → e.serial ≠ some serial := by
  rw [positionOfSerial, List.findIdx?_eq_some_iff_getElem]
  constructor
  · intro h
    obtain ⟨hlt, hserial, hfirst⟩ := h
    refine ⟨devices[i], List.getElem?_eq_getElem hlt, by simpa using hserial, fun j hj e he => ?_⟩
    have hnot := hfirst j hj
    rw [List.getElem?_eq_getElem (hj.trans hlt)] at he
    rw [← Option.some.inj he]
    simpa using hnot
  · intro h
    obtain ⟨d, hd, hserial, hfirst⟩ := h
    obtain ⟨hlt, heq⟩ := List.getElem?_eq_some_iff.mp hd
    refine ⟨hlt, by simpa [heq] using hserial, fun j hj => ?_⟩
    have hnot := hfirst j hj _ (List.getElem?_eq_getElem (hj.trans hlt))
    simpa using hnot

theorem deviceSelector_only {flag : Option String} : deviceSelector flag = .only ↔ flag = none := by
  cases flag with
  | none => simp [deviceSelector]
  | some value =>
    simp only [deviceSelector]
    cases stripPrefix value SERIAL_PREFIX with
    | some rest => simp
    | none =>
      dsimp only
      unfold DeviceSelector.from
      cases parseUsize value with
      | some n => simp
      | none => simp

theorem selectDevice_index : selectDevice devices (.index i) = .ok d ↔ devices[i]? = some d := by
  unfold selectDevice
  split
  · rename_i hempty
    simp [hempty]
  · rw [selectAt_ok]
    constructor
    · intro h
      obtain ⟨j, hj, hd⟩ := h
      split at hj
      · rwa [Option.some.inj hj]
      · exact absurd hj (by simp)
    · intro h
      obtain ⟨hlt, -⟩ := List.getElem?_eq_some_iff.mp h
      exact ⟨i, if_pos hlt, h⟩

theorem selectDevice_serial : selectDevice devices (.serial serial) = .ok d ↔
    ∃ i : ℕ, devices[i]? = some d ∧ d.serial = some serial ∧
      ∀ j < i, ∀ e, devices[j]? = some e → e.serial ≠ some serial := by
  unfold selectDevice
  split
  · rename_i hempty
    simp [hempty]
  · rw [selectAt_ok]
    constructor
    · intro h
      obtain ⟨i, hi, hd⟩ := h
      obtain ⟨e, he, hserial, hfirst⟩ := positionOfSerial_some.mp hi
      rw [hd] at he
      obtain rfl := Option.some.inj he
      exact ⟨i, hd, hserial, hfirst⟩
    · intro h
      obtain ⟨i, hd, hserial, hfirst⟩ := h
      exact ⟨i, positionOfSerial_some.mpr ⟨d, hd, hserial, hfirst⟩, hd⟩

theorem selectDevice_only : selectDevice devices .only = .ok d ↔ devices = [d] := by
  unfold selectDevice
  match devices with
  | [] => simp
  | [e] => simp [selectOnly]
  | e :: f :: rest => simp [selectOnly]

theorem selectDevice_ok {selector : DeviceSelector} :
    selectDevice devices selector = .ok d ↔ ∃ i, Named devices selector i d := by
  constructor
  · intro h
    cases selector with
    | only => exact ⟨0, .only (selectDevice_only.mp h)⟩
    | index i => exact ⟨i, .index (selectDevice_index.mp h)⟩
    | serial serial =>
      obtain ⟨i, hd, hserial, hfirst⟩ := selectDevice_serial.mp h
      exact ⟨i, .serial hd hserial hfirst⟩
  · intro h
    obtain ⟨i, hnamed⟩ := h
    cases hnamed with
    | only hone => exact selectDevice_only.mpr hone
    | index hd => exact selectDevice_index.mpr hd
    | serial hd hserial hfirst => exact selectDevice_serial.mpr ⟨_, hd, hserial, hfirst⟩

/-- A listing is refused whole, and the error says what was wanted. -/
theorem selectDevice_error {selector : DeviceSelector} {e : ChoiceError}
    (h : selectDevice devices selector = .error e) :
    devices = [] ∧ e = .noDevice ∨ 2 ≤ devices.length ∧ selector = .only ∧ e = .ambiguousDevice devices ∨
      devices ≠ [] ∧ ∃ wanted, e = .deviceNotFound wanted devices ∧
        (selector = .serial wanted ∨ ∃ i, selector = .index i ∧ wanted = i.repr) := by
  unfold selectDevice at h
  split at h
  · rename_i hempty
    exact .inl ⟨hempty, (Except.error.inj h).symm⟩
  · rename_i hne
    cases selector with
    | only =>
      right; left
      match devices, hne, h with
      | [d], _, h => exact absurd h (by simp [selectOnly])
      | d :: d' :: rest, _, h => exact ⟨by simp, rfl, (Except.error.inj h).symm⟩
    | serial serial => exact .inr (.inr ⟨hne, _, selectAt_error h, .inl rfl⟩)
    | index i => exact .inr (.inr ⟨hne, _, selectAt_error h, .inr ⟨i, rfl, rfl⟩⟩)

theorem selectDevice_unnamed {selector : DeviceSelector} {e : ChoiceError}
    (h : selectDevice devices selector = .error e) (i : ℕ) (d : DeviceSummary) :
    ¬Named devices selector i d := by
  intro hnamed
  rw [selectDevice_ok.mpr ⟨i, hnamed⟩] at h
  exact absurd h (by simp)

/-- What a selector names nowhere is not found in a listing. -/
theorem selectDevice_notFound {selector : DeviceSelector} {wanted : String} (hne : devices ≠ [])
    (hwanted : selector = .serial wanted ∨ ∃ i, selector = .index i ∧ wanted = i.repr)
    (hnone : ∀ i d, ¬Named devices selector i d) :
    selectDevice devices selector = .error (.deviceNotFound wanted devices) := by
  cases hselect : selectDevice devices selector with
  | ok d =>
    obtain ⟨i, hnamed⟩ := selectDevice_ok.mp hselect
    exact absurd hnamed (hnone i d)
  | error e =>
    rcases selectDevice_error hselect with ⟨hempty, -⟩ | ⟨-, rfl, -⟩ | ⟨-, wanted', rfl, hwanted'⟩
    · exact absurd hempty hne
    · exact absurd hwanted (by simp)
    · have hsame : wanted' = wanted := by
        rcases hwanted with rfl | ⟨i, rfl, rfl⟩
        · exact Eq.symm (by simpa using hwanted')
        · simpa using hwanted'
      rw [hsame]

/-- Without a flag, several devices leave the choice to the user. -/
theorem selectDevice_several (h : 2 ≤ devices.length) :
    selectDevice devices .only = .error (.ambiguousDevice devices) := by
  unfold selectDevice
  match devices with
  | [] => simp at h
  | [e] => simp at h
  | e :: f :: rest => simp [selectOnly]

theorem Named.mem {selector : DeviceSelector} (h : Named devices selector i d) : d ∈ devices := by
  cases h with
  | only hone => exact hone ▸ List.mem_singleton_self d
  | index hd => exact List.mem_of_getElem? hd
  | serial hd _ _ => exact List.mem_of_getElem? hd

end Selecting

section Flags

variable {devices : List DeviceSummary} {d : DeviceSummary} {serial : String} {i : ℕ}

/-- A place of the listing, typed back. -/
theorem named_place (hfits : devices.length ≤ USIZE_MAX) (hd : devices[i]? = some d) :
    Named devices (deviceSelector (some i.repr)) i d := by
  obtain ⟨hlt, -⟩ := List.getElem?_eq_some_iff.mp hd
  have hselector : deviceSelector (some i.repr) = .index i := by
    have hplain : stripPrefix i.repr SERIAL_PREFIX = none := by
      rw [stripPrefix, if_neg]
      intro hbegins
      -- a serial begins with a letter
      have hdigits : ∀ c ∈ i.repr.toList, c.isDigit = true := by
        intro c hc
        rw [Nat.toList_repr] at hc
        exact Nat.isDigit_of_mem_toDigits (by decide) (by decide) hc
      have hs : 's' ∈ i.repr.toList := by
        obtain ⟨rest, hrest⟩ := List.isPrefixOf_iff_prefix.mp hbegins
        rw [← hrest]
        exact List.mem_append_left _ (by decide)
      exact absurd (hdigits 's' hs) (by decide)
    rw [deviceSelector, hplain]
    simp only [DeviceSelector.from, parseUsize_repr (hlt.le.trans hfits)]
  rw [hselector]
  exact .index hd

theorem deviceSelector_prefixed : deviceSelector (some (SERIAL_PREFIX ++ serial)) = .serial serial := by
  have hbegins : SERIAL_PREFIX.toList.isPrefixOf (SERIAL_PREFIX ++ serial).toList = true := by
    rw [String.toList_append, List.isPrefixOf_iff_prefix]
    exact List.prefix_append _ _
  have hstrip : stripPrefix (SERIAL_PREFIX ++ serial) SERIAL_PREFIX = some serial := by
    rw [stripPrefix, if_pos hbegins, String.toList_append, List.drop_left, String.ofList_toList]
  rw [deviceSelector, hstrip]

/-- A serial that reads as a number is a place, and one that begins like the flag's own prefix is
another serial; every other one selects as it stands. -/
theorem deviceSelector_bare : deviceSelector (some serial) = .serial serial ↔
    stripPrefix serial SERIAL_PREFIX = none ∧ parseUsize serial = none := by
  simp only [deviceSelector]
  cases hstrip : stripPrefix serial SERIAL_PREFIX with
  | some rest =>
    -- what is left behind the prefix is shorter
    have hshort : rest ≠ serial := by
      intro hsame
      rw [stripPrefix] at hstrip
      split at hstrip
      · have hlist := congrArg String.toList (Option.some.inj hstrip)
        rw [String.toList_ofList, hsame] at hlist
        rename_i hbegins
        have hle := (List.isPrefixOf_iff_prefix.mp hbegins).length_le
        have hlen := congrArg List.length hlist
        rw [List.length_drop] at hlen
        have hpositive : 0 < SERIAL_PREFIX.toList.length := by decide
        omega
      · exact absurd hstrip (by simp)
    simp [hshort]
  | none =>
    dsimp only
    unfold DeviceSelector.from
    cases hparse : parseUsize serial with
    | some n => simp
    | none => simp

/-- A serial that no other device has names its own. -/
theorem named_serial (hd : devices[i]? = some d) (hserial : d.serial = some serial)
    (hother : ∀ j e, devices[j]? = some e → e.serial = some serial → j = i) :
    Named devices (.serial serial) i d := by
  refine .serial hd hserial fun j hj e he hsame => ?_
  exact absurd (hother j e he hsame) hj.ne

end Flags

section Opening

variable {ω δ α : Type} {usb : Usb ω δ α} {flag : Option String} {prompts : Bool}
  {pick : List DeviceSummary → Choice} {d : DeviceSummary} {h : δ} {selector : DeviceSelector}
  {devices : List DeviceSummary} {dev : Device δ α} {w w₀ w₁ w₂ w' : ω} {e : ChoiceError}

theorem answered_ok {τ : Type} {r : Except MtpError τ} {a : τ} :
    answered usb r = .ok a ↔ r = .ok a := by
  cases r with
  | ok b => simp [answered]
  | error e => simp [answered]

/-- What the stack answers is never one of the choices that are left to make. -/
theorem answered_error {τ : Type} {r : Except MtpError τ} (hanswer : answered usb r = .error e) :
    e = .deviceUnresponsive ∨ ∃ raised : MtpError, e = .raised (.ofMtp raised) := by
  cases r with
  | ok b => exact absurd hanswer (by simp [answered])
  | error raised =>
    rw [answered] at hanswer
    rw [← Except.error.inj hanswer]
    split
    · exact .inl rfl
    · exact .inr ⟨raised, rfl⟩

theorem openListed_error (hopen : openListed usb devices d w = (.error e, w')) :
    e = .deviceUnresponsive ∨ ∃ raised : MtpError, e = .raised (.ofMtp raised) := by
  unfold openListed at hopen
  split at hopen
  · exact answered_error (Prod.mk.inj hopen).1
  · exact answered_error (Prod.mk.inj hopen).1

theorem load_ok : Device.load usb h d w = (.ok dev, w') ↔
    dev.inner = h ∧ dev.summary = d ∧ usb.storages h w = (.ok dev.storages, w') := by
  obtain ⟨inner, storages, summary⟩ := dev
  rcases hstorages : usb.storages h w with ⟨answer, w₁⟩
  simp only [Device.load, hstorages, Prod.mk.injEq]
  cases answer with
  | error raised => simp [answered, Except.map]
  | ok found =>
    simp only [answered, Except.map, Except.ok.injEq, Device.mk.injEq]
    constructor
    · rintro ⟨⟨rfl, rfl, rfl⟩, rfl⟩
      exact ⟨rfl, rfl, rfl, rfl⟩
    · rintro ⟨rfl, rfl, rfl, rfl⟩
      exact ⟨⟨rfl, rfl, rfl⟩, rfl⟩

theorem load_error (hload : Device.load usb h d w = (.error e, w')) :
    e = .deviceUnresponsive ∨ ∃ raised : MtpError, e = .raised (.ofMtp raised) := by
  have hanswer := (Prod.mk.inj hload).1
  cases hstorages : answered usb (usb.storages h w).1 with
  | ok found =>
    rw [hstorages] at hanswer
    exact absurd hanswer (by simp [Except.map])
  | error e' =>
    rw [hstorages] at hanswer
    exact answered_error (hstorages.trans (congrArg Except.error (Except.error.inj hanswer)))

/-- One `Device::open`: a listing, a device of it, its session and its storages. -/
theorem open_ok : Device.open usb selector w = (.ok dev, w') ↔ ∃ devices w₁ w₂,
    usb.listDevices w = (.ok devices, w₁) ∧ (∃ i, Named devices selector i dev.summary) ∧
      openListed usb devices dev.summary w₁ = (.ok dev.inner, w₂) ∧
        usb.storages dev.inner w₂ = (.ok dev.storages, w') := by
  constructor
  · intro h
    unfold Device.open at h
    split at h
    · exact absurd h (by simp)
    · rename_i devices w₁ hlist
      split at h
      · exact absurd h (by simp)
      · rename_i summary hselect
        split at h
        · exact absurd h (by simp)
        · rename_i inner w₂ hopened
          obtain ⟨rfl, rfl, hstorages⟩ := load_ok.mp h
          exact ⟨devices, w₁, w₂, hlist, selectDevice_ok.mp hselect, hopened, hstorages⟩
  · intro h
    obtain ⟨devices, w₁, w₂, hlist, hnamed, hopened, hstorages⟩ := h
    simp only [Device.open, hlist, selectDevice_ok.mpr hnamed, hopened]
    exact load_ok.mpr ⟨rfl, rfl, hstorages⟩

/-- A `Device::open` that fails: at the listing, at the choice, at the session or at the storages. -/
theorem open_error : Device.open usb selector w = (.error e, w') ↔
    (∃ raised, usb.listDevices w = (.error raised, w') ∧ e = .raised (.ofMtp raised)) ∨
      ∃ devices w₁, usb.listDevices w = (.ok devices, w₁) ∧
        (selectDevice devices selector = .error e ∧ w₁ = w' ∨ ∃ i d, Named devices selector i d ∧
          (openListed usb devices d w₁ = (.error e, w') ∨ ∃ inner w₂,
            openListed usb devices d w₁ = (.ok inner, w₂) ∧
              Device.load usb inner d w₂ = (.error e, w'))) := by
  constructor
  · intro hopen
    unfold Device.open at hopen
    split at hopen
    · rename_i raised w₁ hlist
      obtain ⟨he, rfl⟩ := Prod.mk.inj hopen
      exact .inl ⟨raised, hlist, (Except.error.inj he).symm⟩
    · rename_i devices w₁ hlist
      refine .inr ⟨devices, w₁, hlist, ?_⟩
      split at hopen
      · rename_i e' hselect
        obtain ⟨he, rfl⟩ := Prod.mk.inj hopen
        exact .inl ⟨hselect.trans (congrArg _ (Except.error.inj he)), rfl⟩
      · rename_i d hselect
        obtain ⟨i, hnamed⟩ := selectDevice_ok.mp hselect
        refine .inr ⟨i, d, hnamed, ?_⟩
        split at hopen
        · rename_i e' w₂ hlisted
          obtain ⟨he, rfl⟩ := Prod.mk.inj hopen
          rw [← Except.error.inj he]
          exact .inl hlisted
        · rename_i inner w₂ hlisted
          exact .inr ⟨inner, w₂, hlisted, hopen⟩
  · rintro (⟨raised, hlist, rfl⟩ | ⟨devices, w₁, hlist, hrest⟩)
    · simp only [Device.open, hlist]
    · rcases hrest with ⟨hselect, rfl⟩ | ⟨i, d, hnamed, hrest⟩
      · simp only [Device.open, hlist, hselect]
      · have hselect := selectDevice_ok.mpr ⟨i, hnamed⟩
        rcases hrest with hlisted | ⟨inner, w₂, hlisted, hload⟩
        · simp only [Device.open, hlist, hselect, hlisted]
        · simp only [Device.open, hlist, hselect, hlisted, hload]

/-- What was opened is attached and has the serial or the place on the bus that was asked for. With
the bus as it was listed it is the device that was selected, though others may share its serial. -/
theorem openListed_listed (hopen : openListed usb devices d w = (.ok h, w')) (hd : d ∈ devices) :
    usb.listed h ∈ usb.attached w ∧
      ((usb.listed h).serial = d.serial ∨ (usb.listed h).locationId = d.locationId) ∧
        (usb.attached w = devices → usb.listed h = d) := by
  unfold openListed at hopen
  cases hunique : uniqueSerial devices d with
  | none =>
    rw [hunique] at hopen
    obtain ⟨hanswer, -⟩ := Prod.mk.inj hopen
    obtain ⟨hmem, hlocation⟩ := usb.byLocation _ _ _ _ (Prod.ext (answered_ok.mp hanswer) rfl)
    refine ⟨hmem, .inr hlocation, fun hsame => ?_⟩
    exact List.inj_on_of_nodup_map (usb.locations w) hmem (hsame ▸ hd) hlocation
  | some serial =>
    rw [hunique] at hopen
    obtain ⟨hanswer, -⟩ := Prod.mk.inj hopen
    obtain ⟨hmem, hserial⟩ := usb.bySerial _ _ _ _ (Prod.ext (answered_ok.mp hanswer) rfl)
    unfold uniqueSerial at hunique
    split at hunique
    · exact absurd hunique (by simp)
    · rename_i serial' hown
      split at hunique
      · exact absurd hunique (by simp)
      · split at hunique
        · rename_i hone
          obtain rfl := Option.some.inj hunique
          refine ⟨hmem, .inl (hserial.trans hown.symm), fun hsame => ?_⟩
          -- only one device of the listing has the serial
          obtain ⟨x, hx⟩ := List.length_eq_one_iff.mp hone
          have hfirst : usb.listed h ∈ [x] :=
            hx ▸ List.mem_filter.mpr ⟨hsame ▸ hmem, decide_eq_true hserial⟩
          have hsecond : d ∈ [x] := hx ▸ List.mem_filter.mpr ⟨hd, decide_eq_true hown⟩
          rw [List.mem_singleton.mp hfirst, List.mem_singleton.mp hsecond]
        · exact absurd hunique (by simp)

/-- With several devices and no flag the command opens what is picked. -/
theorem openDevice_several (hlist : usb.listDevices w = (.ok devices, w₁))
    (hseveral : 2 ≤ devices.length) :
    openDevice usb none prompts pick w =
      if prompts then
        match pick devices with
        | .picked i => Device.open usb (.index i) w₁
        | .dismissed => (.error (.ambiguousDevice devices), w₁)
        | .interrupted => (.error (.raised .cancelled), w₁)
      else (.error (.ambiguousDevice devices), w₁) := by
  have hopen : Device.open usb (deviceSelector none) w = (.error (.ambiguousDevice devices), w₁) := by
    rw [deviceSelector, Device.open, hlist]
    simp only [selectDevice_several hseveral]
  cases prompts with
  | false => simp only [openDevice, hopen, Bool.false_eq_true, if_false]
  | true =>
    cases hpick : pick devices with
    | picked i => simp only [openDevice, hopen, hpick, if_true]
    | dismissed => simp only [openDevice, hopen, hpick, if_true]
    | interrupted => simp only [openDevice, hopen, hpick, if_true]

/-- In every other case it opens what it selects at once. -/
theorem openDevice_once
    (hnot : ∀ devices w₁, usb.listDevices w = (.ok devices, w₁) → flag = none → devices.length < 2) :
    openDevice usb flag prompts pick w = Device.open usb (deviceSelector flag) w := by
  unfold openDevice
  split
  · rename_i devices w₁ hambiguous
    exfalso
    rcases open_error.mp hambiguous with ⟨raised, -, he⟩ | ⟨listing, w₂, hlist, hrest⟩
    · exact absurd he (by simp)
    · rcases hrest with ⟨hselect, -⟩ | ⟨i, d, -, hlisted | ⟨inner, w₃, -, hload⟩⟩
      · rcases selectDevice_error hselect with ⟨-, h⟩ | ⟨hlen, honly, -⟩ | ⟨-, wanted, h, -⟩
        · exact absurd h (by simp)
        · have hshort := hnot listing w₂ hlist (deviceSelector_only.mp honly)
          omega
        · exact absurd h (by simp)
      -- the stack itself never leaves a choice to make
      · rcases openListed_error hlisted with h | ⟨raised, h⟩
        · exact absurd h (by simp)
        · exact absurd h (by simp)
      · rcases load_error hload with h | ⟨raised, h⟩
        · exact absurd h (by simp)
        · exact absurd h (by simp)
  · rfl

/-- What is asked for is what is opened. -/
theorem Asked.opens (hasked : Asked usb flag prompts pick w selector w₁) :
    openDevice usb flag prompts pick w = Device.open usb selector w₁ := by
  cases hasked with
  | first hshort => exact openDevice_once hshort
  | again hflag hlist hlen hprompts hpick =>
    rw [hflag, openDevice_several hlist hlen, if_pos hprompts, hpick]

/-- Several are listed, and none is picked. -/
def Unpicked {ω δ α : Type} (usb : Usb ω δ α) (flag : Option String) (prompts : Bool)
    (pick : List DeviceSummary → Choice) (w : ω) (e : ChoiceError) (w' : ω) : Prop :=
  ∃ listed, flag = none ∧ usb.listDevices w = (.ok listed, w') ∧ 2 ≤ listed.length ∧
    (e = .ambiguousDevice listed ∧ (prompts = true → pick listed = .dismissed) ∨
      e = .raised .cancelled ∧ prompts = true ∧ pick listed = .interrupted)

theorem Unpicked.refuses (h : Unpicked usb flag prompts pick w e w') :
    openDevice usb flag prompts pick w = (.error e, w') := by
  obtain ⟨listed, rfl, hlist, hlen, hwhy⟩ := h
  rw [openDevice_several hlist hlen]
  rcases hwhy with ⟨rfl, hpick⟩ | ⟨rfl, hprompts, hpick⟩
  · split
    · rename_i hprompts
      rw [hpick hprompts]
    · rfl
  · rw [if_pos hprompts, hpick]

/-- A command asks for one device, or is left without a pick. -/
theorem asked_or_unpicked (usb : Usb ω δ α) (flag : Option String) (prompts : Bool)
    (pick : List DeviceSummary → Choice) (w : ω) :
    (∃ selector w₁, Asked usb flag prompts pick w selector w₁) ∨
      ∃ e w₁, Unpicked usb flag prompts pick w e w₁ := by
  by_cases hseveral : flag = none ∧ ∃ listed w₁,
      usb.listDevices w = (.ok listed, w₁) ∧ 2 ≤ listed.length
  · obtain ⟨hflag, listed, w₁, hlist, hlen⟩ := hseveral
    by_cases hprompts : prompts = true
    · cases hpick : pick listed with
      | picked i => exact .inl ⟨_, _, .again hflag hlist hlen hprompts hpick⟩
      | dismissed =>
        exact .inr ⟨_, w₁, listed, hflag, hlist, hlen, .inl ⟨rfl, fun _ => hpick⟩⟩
      | interrupted =>
        exact .inr ⟨_, w₁, listed, hflag, hlist, hlen, .inr ⟨rfl, hprompts, hpick⟩⟩
    · exact .inr ⟨_, w₁, listed, hflag, hlist, hlen, .inl ⟨rfl, fun h => absurd h hprompts⟩⟩
  · refine .inl ⟨_, _, .first fun listed w₁ hlist hflag => ?_⟩
    exact not_le.mp fun hlen => hseveral ⟨hflag, listed, w₁, hlist, hlen⟩

/-- The listing a device is taken from, either way. -/
theorem openDevice_ok : openDevice usb flag prompts pick w = (.ok dev, w') ↔
    ∃ selector devices w₀ w₁ w₂, Asked usb flag prompts pick w selector w₀ ∧
      usb.listDevices w₀ = (.ok devices, w₁) ∧ (∃ i, Named devices selector i dev.summary) ∧
        openListed usb devices dev.summary w₁ = (.ok dev.inner, w₂) ∧
          usb.storages dev.inner w₂ = (.ok dev.storages, w') := by
  constructor
  · intro hopen
    rcases asked_or_unpicked usb flag prompts pick w with ⟨selector, w₀, hasked⟩ | ⟨e, w₁, hnone⟩
    · obtain ⟨devices, w₁, w₂, hrest⟩ := open_ok.mp (hasked.opens.symm.trans hopen)
      exact ⟨selector, devices, w₀, w₁, w₂, hasked, hrest⟩
    · exact absurd (hnone.refuses.symm.trans hopen) (by simp)
  · rintro ⟨selector, devices, w₀, w₁, w₂, hasked, hrest⟩
    exact hasked.opens.trans (open_ok.mpr ⟨devices, w₁, w₂, hrest⟩)

/-- A listing that is asked for one device alone has no other. -/
theorem Asked.only (hasked : Asked usb flag prompts pick w .only w₀)
    (hlist : usb.listDevices w₀ = (.ok devices, w₁)) : devices.length < 2 := by
  generalize hselector : DeviceSelector.only = selector at hasked
  cases hasked with
  | first hshort => exact hshort devices w₁ hlist (deviceSelector_only.mp hselector.symm)
  | again => exact absurd hselector (by simp)

theorem openDevice_error : openDevice usb flag prompts pick w = (.error e, w') ↔
    Refused usb flag prompts pick w e w' := by
  constructor
  · intro hopen
    rcases asked_or_unpicked usb flag prompts pick w with ⟨selector, w₀, hasked⟩ | ⟨e', w₁, hnone⟩
    · rw [hasked.opens] at hopen
      rcases open_error.mp hopen with ⟨raised, hlist, rfl⟩ | ⟨devices, w₁, hlist, hrest⟩
      · exact .unlisted hasked hlist
      · rcases hrest with ⟨hselect, rfl⟩ | ⟨i, d, hnamed, hlisted | ⟨inner, w₂, hlisted, hload⟩⟩
        · rcases selectDevice_error hselect with ⟨rfl, rfl⟩ | ⟨hlen, rfl, -⟩ | ⟨hne, wanted, rfl, hwanted⟩
          · exact .noDevice hasked hlist
          · have hshort := hasked.only hlist
            omega
          · exact .notFound hasked hlist hne hwanted (selectDevice_unnamed hselect)
        · exact .unopened hasked hlist hnamed hlisted
        · exact .unloaded hasked hlist hnamed hlisted hload
    · obtain ⟨he, rfl⟩ := Prod.mk.inj (hnone.refuses.symm.trans hopen)
      obtain rfl := Except.error.inj he
      obtain ⟨listed, hflag, hlist, hlen, ⟨rfl, hpick⟩ | ⟨rfl, hprompts, hpick⟩⟩ := hnone
      · exact .several hflag hlist hlen hpick
      · exact .interrupted hflag hlist hlen hprompts hpick
  · intro hrefused
    cases hrefused with
    | several hflag hlist hlen hpick =>
      exact Unpicked.refuses ⟨_, hflag, hlist, hlen, .inl ⟨rfl, hpick⟩⟩
    | interrupted hflag hlist hlen hprompts hpick =>
      exact Unpicked.refuses ⟨_, hflag, hlist, hlen, .inr ⟨rfl, hprompts, hpick⟩⟩
    | unlisted hasked hlist =>
      rw [hasked.opens]
      exact open_error.mpr (.inl ⟨_, hlist, rfl⟩)
    | noDevice hasked hlist =>
      rw [hasked.opens]
      exact open_error.mpr (.inr ⟨_, _, hlist, .inl ⟨rfl, rfl⟩⟩)
    | notFound hasked hlist hne hwanted hnone =>
      rw [hasked.opens]
      exact open_error.mpr (.inr ⟨_, _, hlist, .inl ⟨selectDevice_notFound hne hwanted hnone, rfl⟩⟩)
    | unopened hasked hlist hnamed hlisted =>
      rw [hasked.opens]
      exact open_error.mpr (.inr ⟨_, _, hlist, .inr ⟨_, _, hnamed, .inl hlisted⟩⟩)
    | unloaded hasked hlist hnamed hlisted hload =>
      rw [hasked.opens]
      exact open_error.mpr (.inr ⟨_, _, hlist, .inr ⟨_, _, hnamed, .inr ⟨_, _, hlisted, hload⟩⟩⟩)

end Opening

private def twin (location : ℕ) : DeviceSummary :=
  ⟨some "0123456789ABCDEF", "Pocket camera", 0x04CB, 0x01C4, location, some .high⟩

/-- Two cameras of one serial, which stay attached; the state counts the calls. -/
private def twinBus : Usb ℕ DeviceSummary String where
  attached _ := [twin 1, twin 2]
  listDevices calls := (.ok [twin 1, twin 2], calls + 1)
  openBySerial serial calls :=
    (if (twin 1).serial = some serial then .ok (twin 1) else .error .noDevice, calls + 1)
  openByLocation location calls :=
    (if location = 1 ∨ location = 2 then .ok (twin location) else .error .noDevice, calls + 1)
  storages _ calls := (.ok ["Internal"], calls + 1)
  isTimeout _ := false
  listed d := d
  fits _ := by decide
  locations _ := by decide
  lists _ _ _ h := (Except.ok.inj (Prod.mk.inj h).1).symm
  bySerial serial w inner w' h := by
    have hopened := (Prod.mk.inj h).1
    split at hopened
    · rename_i hserial
      rw [← Except.ok.inj hopened]
      exact ⟨List.mem_cons_self, hserial⟩
    · exact absurd hopened (by simp)
  byLocation location w inner w' h := by
    have hopened := (Prod.mk.inj h).1
    split at hopened
    · rename_i hlocation
      rw [← Except.ok.inj hopened]
      rcases hlocation with rfl | rfl
      · exact ⟨List.mem_cons_self, rfl⟩
      · exact ⟨List.mem_cons_of_mem _ List.mem_cons_self, rfl⟩
    · exact absurd hopened (by simp)

section Storages

variable {α τ : Type} {info : α → StorageInfo} {storages : List α} {tables : CaseTables}

/-- A storage is required of a path without one, on a device that has several. -/
theorem selectStorage_required {selector : StorageSelector} :
    (selector = .default ∧ 2 ≤ storages.length →
      selectStorage info storages tables selector =
        .error (.storageRequired (storageSummaries info storages))) ∧
      (¬(selector = .default ∧ 2 ≤ storages.length) → ∀ required,
        selectStorage info storages tables selector ≠ .error (.storageRequired required)) := by
  cases selector with
  | default =>
    match storages with
    | [] => exact ⟨fun h => absurd h.2 (by simp), fun _ required => by simp [selectStorage, onlyStorage]⟩
    | [only] =>
      exact ⟨fun h => absurd h.2 (by simp), fun _ required => by simp [selectStorage, onlyStorage]⟩
    | first :: second :: rest => exact ⟨fun _ => rfl, fun h => absurd ⟨rfl, by simp⟩ h⟩
  | index i =>
    refine ⟨fun h => absurd h.1 (by simp), fun _ required => ?_⟩
    rw [selectStorage]
    split
    · simp
    · simp [storageNotFound]
  | named name =>
    refine ⟨fun h => absurd h.1 (by simp), fun _ required => ?_⟩
    rw [selectStorage]
    split
    · simp
    · simp [storageNotFound]

theorem storageSummaries_get (i : ℕ) : (storageSummaries info storages)[i]? =
    storages[i]?.map fun storage => storageSummary i (info storage) := by
  rw [storageSummaries, List.getElem?_map, List.getElem?_zipIdx]
  cases storages[i]? with
  | none => rfl
  | some storage => simp

/-- The picked line is the storage with that place. -/
theorem onStorage_storage (path : DevicePath) (i : ℕ) :
    (onStorage path (storageSummaries info storages) i).storage = .index i := by
  rw [onStorage, storageSummaries_get]
  cases storages[i]? with
  | none => rfl
  | some storage => rfl

/-- A place among the storages, typed back. -/
theorem selectStorage_place (hfits : storages.length ≤ USIZE_MAX) {i : ℕ} {storage : α}
    (h : storages[i]? = some storage) (path : DevicePath) :
    selectStorage info storages tables (resolveStorage (some i.repr) path).storage = .ok storage := by
  obtain ⟨hlt, -⟩ := List.getElem?_eq_some_iff.mp h
  have hparse := parseUsize_repr (hlt.le.trans hfits)
  have hfrom : StorageSelector.from i.repr = .index i := by
    unfold StorageSelector.from
    rw [hparse]
  rw [resolveStorage, hfrom, selectStorage, h]

end Storages

/-- What comes of asking for a storage, when the path has none and the device several. -/
def askedStorage {α : Type} (info : α → StorageInfo) (storages : List α) (prompts : Bool)
    (pick : List StorageSummary → Choice) : Except ChoiceError α :=
  if prompts then
    match pick (storageSummaries info storages) with
    | .picked i =>
      match storages[i]? with
      | some storage => .ok storage
      | none => .error (storageNotFound info storages i.repr)
    | .dismissed => .error (.storageRequired (storageSummaries info storages))
    | .interrupted => .error (.raised .cancelled)
  else .error (.storageRequired (storageSummaries info storages))

/-- The storage a command works on: the one its path selects, or the one it has asked for. -/
def storageFor {α : Type} (info : α → StorageInfo) (storages : List α) (tables : CaseTables)
    (prompts : Bool) (pick : List StorageSummary → Choice) (path : DevicePath) : Except ChoiceError α :=
  if path.storage = .default ∧ 2 ≤ storages.length then askedStorage info storages prompts pick
  else selectStorage info storages tables path.storage

/-- The operation with a log of what it was run on. -/
def recorded {ω κ ρ : Type} (op : κ → ω → ρ × ω) (k : κ) (w : ω × List κ) : ρ × (ω × List κ) :=
  ((op k w.1).1, (op k w.1).2, w.2 ++ [k])

section Asking

variable {ω α τ : Type} {info : α → StorageInfo} {storages : List α} {tables : CaseTables}
  {prompts : Bool} {pick : List StorageSummary → Choice} {path : DevicePath}
  {op : RemotePath → α → ω → Except Error τ × ω} {w : ω}

/-- What a command comes to once its storage is settled. -/
def runOn (op : RemotePath → α → ω → Except Error τ × ω) (path : RemotePath) (w : ω) :
    Except ChoiceError α → Except ChoiceError τ × ω
  | .error e => (.error e, w)
  | .ok storage => ((op path storage w).1.mapError .raised, (op path storage w).2)

theorem onSelected_eq : onSelected info storages tables op path w =
    runOn op path.path w (selectStorage info storages tables path.storage) := by
  unfold onSelected
  cases selectStorage info storages tables path.storage with
  | error e => rfl
  | ok storage => rfl

/-- Only the choice of a storage ever asks for one, and it leaves everything as it was. -/
theorem onSelected_required {required : List StorageSummary} {w' : ω}
    (h : onSelected info storages tables op path w = (.error (.storageRequired required), w')) :
    (path.storage = .default ∧ 2 ≤ storages.length) ∧ w' = w := by
  rw [onSelected_eq] at h
  cases hselect : selectStorage info storages tables path.storage with
  | error e =>
    rw [hselect] at h
    obtain ⟨he, hw⟩ := Prod.mk.inj h
    obtain rfl := Except.error.inj he
    refine ⟨?_, hw.symm⟩
    by_contra hnot
    exact selectStorage_required.2 hnot required hselect
  | ok storage =>
    rw [hselect] at h
    have hdone := (Prod.mk.inj h).1
    cases hop : (op path.path storage w).1 with
    | ok t =>
      rw [hop] at hdone
      exact absurd hdone (by simp [Except.mapError])
    | error e =>
      rw [hop] at hdone
      exact absurd hdone (by simp [Except.mapError])

theorem withStorage_asked (hrequired : path.storage = .default ∧ 2 ≤ storages.length) :
    withStorage prompts pick path (onSelected info storages tables op) w =
      runOn op path.path w (askedStorage info storages prompts pick) := by
  have hfirst : onSelected info storages tables op path w =
      (.error (.storageRequired (storageSummaries info storages)), w) := by
    rw [onSelected_eq, selectStorage_required.1 hrequired]
    rfl
  simp only [withStorage, hfirst, askedStorage, pickStorage]
  cases prompts with
  | false => rfl
  | true =>
    simp only [if_true]
    cases hpick : pick (storageSummaries info storages) with
    | dismissed => rfl
    | interrupted => rfl
    | picked i =>
      have hpath : (onStorage path (storageSummaries info storages) i).path = path.path := rfl
      dsimp only
      rw [onSelected_eq, onStorage_storage, hpath]
      rfl

theorem withStorage_once (hnot : ¬(path.storage = .default ∧ 2 ≤ storages.length)) :
    withStorage prompts pick path (onSelected info storages tables op) w =
      runOn op path.path w (selectStorage info storages tables path.storage) := by
  rw [← onSelected_eq]
  unfold withStorage
  split
  · rename_i e w' hfirst
    have hkept : pickStorage prompts pick path e = .error e := by
      cases e with
      | storageRequired required => exact absurd (onSelected_required hfirst).1 hnot
      | _ => rfl
    rw [hkept, hfirst]
  · rfl

theorem withStorage_eq : withStorage prompts pick path (onSelected info storages tables op) w =
    runOn op path.path w (storageFor info storages tables prompts pick path) := by
  unfold storageFor
  by_cases hrequired : path.storage = .default ∧ 2 ≤ storages.length
  · rw [if_pos hrequired, withStorage_asked hrequired]
  · rw [if_neg hrequired, withStorage_once hrequired]

/-- A path is tried once, or once more on the storage that was picked when one was required. -/
theorem withStorage_attempts {attempt : DevicePath → ω → Except ChoiceError τ × ω} :
    (withStorage prompts pick path (recorded attempt) (w, [])).2.2 = [path] ∨
      ∃ required i, (attempt path w).1 = .error (.storageRequired required) ∧ prompts = true ∧
        pick required = .picked i ∧
          (withStorage prompts pick path (recorded attempt) (w, [])).2.2 =
            [path, onStorage path required i] := by
  rcases hattempt : attempt path w with ⟨answer, w₁⟩
  have hfirst : recorded attempt path (w, []) = (answer, w₁, [path]) := by
    rw [recorded, hattempt]
    rfl
  simp only [withStorage, hfirst]
  cases answer with
  | ok t => exact .inl rfl
  | error e =>
    dsimp only
    cases e with
    | storageRequired required =>
      cases hprompts : prompts with
      | false => exact .inl rfl
      | true =>
        simp only [pickStorage, if_true]
        cases hpick : pick required with
        | dismissed => exact .inl rfl
        | interrupted => exact .inl rfl
        | picked i => exact .inr ⟨required, i, rfl, trivial, hpick, rfl⟩
    | _ => exact .inl rfl

end Asking

/-- A command runs on the storage its path selects, or, when the path has none and the device several,
on the one that is picked: once there and nowhere else, or not at all. Its path is tried again only
after a pick, and the place of a storage in the list can be given as a flag instead. -/
theorem with_storage_iff {ω α τ : Type} (info : α → StorageInfo) (storages : List α)
    (tables : CaseTables) (prompts : Bool) (pick : List StorageSummary → Choice) (path : DevicePath)
    (op : RemotePath → α → ω → Except Error τ × ω) (w : ω) (hfits : storages.length ≤ USIZE_MAX) :
    withStorage prompts pick path (onSelected info storages tables op) w =
        runOn op path.path w (storageFor info storages tables prompts pick path) ∧
      (withStorage prompts pick path (onSelected info storages tables fun p storage =>
          recorded (fun on => op on.1 on.2) (p, storage)) (w, [])).2.2 =
        (storageFor info storages tables prompts pick path).toOption.toList.map (path.path, ·) ∧
      (∀ attempt : DevicePath → ω → Except ChoiceError τ × ω,
        (withStorage prompts pick path (recorded attempt) (w, [])).2.2 = [path] ∨
          ∃ required i, (attempt path w).1 = .error (.storageRequired required) ∧ prompts = true ∧
            pick required = .picked i ∧
              (withStorage prompts pick path (recorded attempt) (w, [])).2.2 =
                [path, onStorage path required i]) ∧
      ∀ (i : ℕ) (storage : α), storages[i]? = some storage →
        selectStorage info storages tables (resolveStorage (some i.repr) path).storage = .ok storage := by
  refine ⟨withStorage_eq, ?_, fun attempt => withStorage_attempts,
    fun i storage h => selectStorage_place hfits h path⟩
  rw [withStorage_eq]
  cases storageFor info storages tables prompts pick path with
  | error e => rfl
  | ok storage => rfl

private def twoCards : List StorageInfo := [⟨"Internal", "", 7, 9⟩, ⟨"SD card", "C0DE", 1, 2⟩]

private def cameraRoot : DevicePath := ⟨.default, RemotePath.root⟩

/-- Reads the volume identifier of a storage, and counts the readings. -/
private def readVolume (_ : RemotePath) (storage : StorageInfo) (readings : ℕ) :
    Except Error String × ℕ := (.ok storage.volumeIdentifier, readings + 1)

/-- The second of two storages is picked, and read once. -/
theorem with_storage_iff_card :
    withStorage true (fun _ => .picked 1) cameraRoot (onSelected id twoCards .ascii readVolume) 0 =
        (.ok "C0DE", 1) ∧
      selectStorage id twoCards .ascii (resolveStorage (some (1).repr) cameraRoot).storage =
        .ok ⟨"SD card", "C0DE", 1, 2⟩ := by
  obtain ⟨hrun, -, -, hplaces⟩ := with_storage_iff id twoCards .ascii true (fun _ => .picked 1)
    cameraRoot readVolume 0 (by decide)
  exact ⟨hrun, hplaces 1 _ rfl⟩

end MtpxCore
