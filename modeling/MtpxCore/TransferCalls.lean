import MtpxCore.TransferCells
import Mathlib.Data.List.Infix

/-! Every filesystem call on one of the four names of a transfer, as a triple over the cells:
what it leaves when it runs, when it fails, and when the process is killed in it. -/
namespace MtpxCore

open CrashHoare

/-- The bytes of a file; nothing for anything else. -/
def bytesOf : Option Obj → Bytes
  | some (.file bytes _) => bytes
  | _ => []

/-- What writing `chunk` after `bytes` comes to: all of it lands, or a part of it with the
failure owed, told at once, or never told. -/
def appended (vol : Volume) (finalPath : List OsName) (env : Weather) (d : Disk) (c : Cells)
    (x : Cell) (n : ℕ) (bytes chunk : Bytes) (readable : Bool) : Post World IoErrorKind File where
  ok file w := file = ⟨cellPath finalPath x, bytes.length + chunk.length⟩ ∧
    (Holds vol finalPath d (Function.update c x (some (.file (bytes ++ chunk) readable))) none n w ∨
      ∃ m i kind, Holds vol finalPath d
        (Function.update c x (some (.file (bytes ++ chunk.take m) readable))) (some kind) (i + 1) w ∧
        env i ≠ .none)
  err _ w := ∃ m, Holds vol finalPath d
    (Function.update c x (some (.file (bytes ++ chunk.take m) readable))) none n w
  died w := ∃ m, OnDisk vol finalPath d
    (Function.update c x (some (.file (bytes ++ chunk.take m) readable))) w

section Calls

variable {vol : Volume} {finalPath : List OsName} {env : Weather} {d : Disk} {c : Cells}
  {pending : Option IoErrorKind} {n : ℕ} {x y : Cell}

/-- A call that only looks leaves the cells alone, however it ends. -/
theorem look_triple {α : Type} {op : Op} {path : List OsName}
    {act : LocalTree → Except IoErrorKind (α × LocalTree)} {torn : ℕ → LocalTree → LocalTree}
    (hact : ∀ tree a tree', act tree = .ok (a, tree') → tree' = tree)
    (htorn : ∀ n tree, torn n tree = tree) :
    Triple (Holds vol finalPath d c pending n) (perform env op path act torn)
      ⟨fun a w => Holds vol finalPath d c pending n w ∧ act w.tree = .ok (a, w.tree),
        fun kind w => Holds vol finalPath d c pending n w ∧
          (act w.tree = .error kind ∨ ∃ m, n ≤ m ∧ env m ≠ .none ∧ kind ≠ .notFound),
        OnDisk vol finalPath d c⟩ := by
  apply perform_triple
  · intro w a tree hw ha
    cases hact _ _ _ ha
    exact ⟨hw.logged hw.1, ha⟩
  · intro w kind hw ha
    exact ⟨hw.logged hw.1, Or.inl ha⟩
  · intro w kind m hw henv
    rw [htorn]
    refine ⟨hw.logged hw.1, Or.inr ⟨w.trace.length, hw.2.2, ?_, kind.2⟩⟩
    rw [henv]
    simp
  · intro w m hw
    rw [htorn]
    exact hw.1

/-- Opening a file starts with nothing owed. -/
theorem opened_triple {α : Type} {m : Fs α} {Q : Post World IoErrorKind α}
    (h : Triple (Holds vol finalPath d c none n) m Q) :
    Triple (Holds vol finalPath d c pending n) (fun w => m { w with pending := none }) Q := by
  intro w hw
  exact h { w with pending := none } ⟨hw.1, rfl, hw.2.2⟩

variable (hk : Function.Injective (cellKey vol finalPath))
include hk

theorem metadata_triple : Triple (Holds vol finalPath d c pending n)
    (metadata vol env (cellPath finalPath x))
    ⟨fun m w => Holds vol finalPath d c pending n w ∧
        ∃ obj, c x = some obj ∧ obj ≠ .danglingLink ∧ m = metadataOf vol obj,
      fun kind w => Holds vol finalPath d c pending n w ∧
        (kind = .notFound → c x = none ∨ c x = some .danglingLink),
      OnDisk vol finalPath d c⟩ := by
  refine (look_triple ?_ (fun _ _ => rfl)).weaken (fun _ h => h) ⟨?_, ?_, fun _ h => h⟩
  · intro tree a tree' h
    split at h
    · exact absurd h (by simp)
    · exact absurd h (by simp)
    · exact (congrArg Prod.snd (Except.ok.inj h)).symm
  · intro m w h
    obtain ⟨hw, h⟩ := h
    refine ⟨hw, ?_⟩
    -- the cell is what the path leads to
    rw [hw.1.get hk x] at h
    cases hc : c x with
    | none =>
      rw [hc] at h
      exact absurd h (by simp)
    | some obj =>
      rw [hc] at h
      refine ⟨obj, rfl, ?_, ?_⟩
      · rintro rfl
        exact absurd h (by simp)
      · cases obj with
        | danglingLink => exact absurd h (by simp)
        | file bytes readable => exact (congrArg Prod.fst (Except.ok.inj h)).symm
        | dir readable => exact (congrArg Prod.fst (Except.ok.inj h)).symm
        | special => exact (congrArg Prod.fst (Except.ok.inj h)).symm
  · intro kind w h
    obtain ⟨hw, h⟩ := h
    refine ⟨hw, ?_⟩
    rintro rfl
    rcases h with h | ⟨m, -, -, hne⟩
    · rw [hw.1.get hk x] at h
      cases hc : c x with
      | none => exact Or.inl rfl
      | some obj =>
        rw [hc] at h
        cases obj with
        | danglingLink => exact Or.inr rfl
        | file bytes readable => exact absurd h (by simp)
        | dir readable => exact absurd h (by simp)
        | special => exact absurd h (by simp)
    · exact absurd rfl hne

theorem removeFile_triple : Triple (Holds vol finalPath d c pending n)
    (removeFile vol env (cellPath finalPath x))
    ⟨fun _ w => Holds vol finalPath d (Function.update c x none) pending n w ∧
        w.trace.head? = some ⟨.remove, cellPath finalPath x, none⟩,
      fun kind w => Holds vol finalPath d c pending n w ∧ (kind = .notFound → c x = none) ∧
        w.trace.head? = some ⟨.remove, cellPath finalPath x, some kind⟩,
      OnDisk vol finalPath d c⟩ := by
  apply perform_triple
  · intro w a tree hw ha
    split at ha
    · exact absurd ha (by simp)
    · exact absurd ha (by simp)
    · cases ha
      exact ⟨hw.logged (hw.1.erase hk x), rfl⟩
  · intro w kind hw ha
    refine ⟨hw.logged hw.1, ?_, rfl⟩
    rintro rfl
    rw [hw.1.get hk x] at ha
    cases hc : c x with
    | none => rfl
    | some obj =>
      rw [hc] at ha
      cases obj <;> exact absurd ha (by simp)
  · intro w kind m hw _
    exact ⟨hw.logged hw.1, fun h => absurd h kind.2, rfl⟩
  · intro w m hw
    exact hw.1

/-- Creating or cutting a file puts exactly the given bytes there. -/
theorem createWith_ok {w : World} {tree : LocalTree} {bytes : Bytes}
    (h : OnDisk vol finalPath d c w)
    (hc : createWith vol (cellPath finalPath x) bytes w.tree = .ok tree) :
    ∃ readable, tree.disk vol = Function.extend (cellKey vol finalPath)
      (Function.update c x (some (.file bytes readable))) d := by
  unfold createWith at hc
  split at hc
  · exact absurd hc (by simp)
  · exact absurd hc (by simp)
  · exact ⟨_, h.put hk hc⟩
  · exact ⟨_, h.put hk hc⟩

theorem createFile_triple : Triple (Holds vol finalPath d c pending n)
    (createFile vol env (cellPath finalPath x))
    ⟨fun file w => file = ⟨cellPath finalPath x, 0⟩ ∧ ∃ readable,
        Holds vol finalPath d (Function.update c x (some (.file [] readable))) none n w,
      fun _ w => Holds vol finalPath d c none n w, OnDisk vol finalPath d c⟩ := by
  apply opened_triple
  apply perform_triple
  · intro w a tree hw ha
    cases hc : createWith vol (cellPath finalPath x) [] w.tree with
    | error kind =>
      rw [hc] at ha
      exact absurd ha (by simp [Except.map])
    | ok t =>
      rw [hc] at ha
      cases ha
      obtain ⟨readable, hd⟩ := createWith_ok hk hw.1 hc
      exact ⟨rfl, readable, hw.logged hd⟩
  · intro w kind hw _
    exact hw.logged hw.1
  · intro w kind m hw _
    exact hw.logged hw.1
  · intro w m hw
    exact hw.1

theorem openWrite_triple : Triple (Holds vol finalPath d c pending n)
    (openWrite vol env (cellPath finalPath x))
    ⟨fun file w => Holds vol finalPath d c none n w ∧ file = ⟨cellPath finalPath x, 0⟩ ∧
        ∃ bytes readable, c x = some (.file bytes readable),
      fun _ w => Holds vol finalPath d c none n w, OnDisk vol finalPath d c⟩ := by
  apply opened_triple
  refine (look_triple ?_ (fun _ _ => rfl)).weaken (fun _ h => h) ⟨?_, ?_, fun _ h => h⟩
  · intro tree a tree' h
    split at h
    · exact (congrArg Prod.snd (Except.ok.inj h)).symm
    all_goals exact absurd h (by simp)
  · intro file w h
    obtain ⟨hw, h⟩ := h
    rw [hw.1.get hk x] at h
    split at h
    · rename_i bytes readable hc
      exact ⟨hw, (congrArg Prod.fst (Except.ok.inj h)).symm, bytes, readable, hc⟩
    all_goals exact absurd h (by simp)
  · intro kind w h
    exact h.1

theorem contents_eq {w : World} {pos : ℕ} {bytes : Bytes} {readable : Bool}
    (h : OnDisk vol finalPath d c w) (hc : c x = some (.file bytes readable)) :
    contents vol w.tree ⟨cellPath finalPath x, pos⟩ = bytes := by
  rw [contents, h.get hk x, hc]

/-- Changing what the open file holds changes its cell and nothing else. -/
theorem setContents_disk {w : World} {pos : ℕ} {bytes new : Bytes} {readable : Bool}
    (h : OnDisk vol finalPath d c w) (hc : c x = some (.file bytes readable)) :
    (setContents vol w.tree ⟨cellPath finalPath x, pos⟩ new).disk vol =
      Function.extend (cellKey vol finalPath) (Function.update c x (some (.file new readable))) d := by
  have hget := h.get hk x
  rw [hc] at hget
  have hput : ∃ tree, w.tree.put vol (cellPath finalPath x) (.file new readable) = .ok tree := by
    rw [LocalTree.get, Option.map_eq_some_iff] at hget
    obtain ⟨node, hnode, -⟩ := hget
    rw [LocalTree.put, hnode]
    exact ⟨_, rfl⟩
  obtain ⟨tree, hp⟩ := hput
  rw [setContents, hget]
  dsimp only
  rw [hp]
  exact h.put hk hp

theorem fileLen_triple {pos : ℕ} {bytes : Bytes} {readable : Bool}
    (hc : c x = some (.file bytes readable)) : Triple (Holds vol finalPath d c pending n)
    (fileLen vol env ⟨cellPath finalPath x, pos⟩)
    ⟨fun len w => Holds vol finalPath d c pending n w ∧ len = bytes.length,
      fun _ w => Holds vol finalPath d c pending n w ∧ ∃ m, n ≤ m ∧ env m ≠ .none,
      OnDisk vol finalPath d c⟩ := by
  refine (look_triple ?_ (fun _ _ => rfl)).weaken (fun _ h => h) ⟨?_, ?_, fun _ h => h⟩
  · intro tree a tree' h
    exact (congrArg Prod.snd (Except.ok.inj h)).symm
  · intro len w h
    obtain ⟨hw, h⟩ := h
    rw [contents_eq hk hw.1 hc] at h
    exact ⟨hw, (congrArg Prod.fst (Except.ok.inj h)).symm⟩
  · intro kind w h
    obtain ⟨hw, h | ⟨m, hm, hne, -⟩⟩ := h
    · exact absurd h (by simp)
    · exact ⟨hw, m, hm, hne⟩

theorem setLen_triple {pos len : ℕ} {bytes : Bytes} {readable : Bool}
    (hc : c x = some (.file bytes readable)) (hlen : len ≤ bytes.length) :
    Triple (Holds vol finalPath d c pending n) (setLen vol env ⟨cellPath finalPath x, pos⟩ len)
    ⟨fun _ w => Holds vol finalPath d
        (Function.update c x (some (.file (bytes.take len) readable))) pending n w,
      fun _ w => Holds vol finalPath d c pending n w, OnDisk vol finalPath d c⟩ := by
  apply perform_triple
  · intro w a tree hw ha
    cases ha
    apply hw.logged
    rw [contents_eq hk hw.1 hc, Nat.sub_eq_zero_of_le hlen, List.replicate_zero, List.append_nil]
    exact setContents_disk hk hw.1 hc
  · intro w kind hw ha
    exact absurd ha (by simp)
  · intro w kind m hw _
    exact hw.logged hw.1
  · intro w m hw
    exact hw.1

omit hk in
theorem seek_triple {file : File} {pos : ℕ} : Triple (Holds vol finalPath d c pending n)
    (seek env file pos)
    ⟨fun file' w => Holds vol finalPath d c pending n w ∧ file' = { file with pos := pos },
      fun _ w => Holds vol finalPath d c pending n w, OnDisk vol finalPath d c⟩ := by
  refine (look_triple ?_ (fun _ _ => rfl)).weaken (fun _ h => h) ⟨?_, fun _ _ h => h.1, fun _ h => h⟩
  · intro tree a tree' h
    exact (congrArg Prod.snd (Except.ok.inj h)).symm
  · intro file' w h
    exact ⟨h.1, (congrArg Prod.fst (Except.ok.inj h.2)).symm⟩

omit hk in
/-- Writing at the end of a file appends. -/
theorem overwrite_end (bytes chunk : Bytes) : overwrite bytes bytes.length chunk = bytes ++ chunk := by
  rw [overwrite, List.take_length, Nat.sub_self, List.replicate_zero, List.append_nil,
    List.drop_eq_nil_of_le (Nat.le_add_right _ _), List.append_nil]

theorem landChunk_disk {w : World} {bytes chunk : Bytes} {readable : Bool}
    (h : OnDisk vol finalPath d c w) (hc : c x = some (.file bytes readable)) :
    (landChunk vol w.tree ⟨cellPath finalPath x, bytes.length⟩ chunk).disk vol =
      Function.extend (cellKey vol finalPath)
        (Function.update c x (some (.file (bytes ++ chunk) readable))) d := by
  rw [landChunk, contents_eq hk h hc, overwrite_end]
  exact setContents_disk hk h hc

/-- A chunk lands whole, or in part with a failure told now or owed, or in part with the
process killed. -/
theorem writeAll_triple {bytes chunk : Bytes} {readable : Bool}
    (hc : c x = some (.file bytes readable)) : Triple (Holds vol finalPath d c none n)
    (writeAll vol env ⟨cellPath finalPath x, bytes.length⟩ chunk)
    (appended vol finalPath env d c x n bytes chunk readable) := by
  have hrun : Triple (Holds vol finalPath d c none n)
      (perform env .write (cellPath finalPath x)
        (fun tree => .ok ((⟨cellPath finalPath x, bytes.length + chunk.length⟩ : File),
          landChunk vol tree ⟨cellPath finalPath x, bytes.length⟩ chunk))
        (fun n tree => landChunk vol tree ⟨cellPath finalPath x, bytes.length⟩ (chunk.take n)))
      (appended vol finalPath env d c x n bytes chunk readable) := by
    apply perform_triple
    · intro w a tree hw ha
      cases ha
      exact ⟨rfl, Or.inl (hw.logged (landChunk_disk hk hw.1 hc))⟩
    · intro w kind hw ha
      exact absurd ha (by simp)
    · intro w kind m hw _
      exact ⟨m, hw.logged (landChunk_disk hk hw.1 hc)⟩
    · intro w m hw
      exact ⟨m, landChunk_disk hk hw.1 hc⟩
  intro w hw
  have hmeets := hrun w hw
  unfold writeAll
  rw [hw.2.1]
  dsimp only
  split
  · rename_i kind m henv
    refine ⟨rfl, Or.inr ⟨m, w.trace.length, kind, ⟨landChunk_disk hk hw.1 hc, rfl, ?_⟩, ?_⟩⟩
    · simp [World.logged]
    · rw [henv]
      simp
  · exact hmeets

omit hk in
/-- A chunk after a failure that is owed is not written; the failure is told. -/
theorem writeAll_owed {file : File} {chunk : Bytes} {kind : IoErrorKind} :
    Triple (Holds vol finalPath d c (some kind) n) (writeAll vol env file chunk)
      ⟨fun _ _ => False, fun _ w => Holds vol finalPath d c none n w, OnDisk vol finalPath d c⟩ := by
  intro w hw
  unfold writeAll
  rw [hw.2.1]
  have hlogged : Holds vol finalPath d c (some kind) n
      (w.logged w.tree .write file.path (some kind)) := hw.logged hw.1
  exact ⟨hlogged.1, rfl, hlogged.2.2⟩

omit hk in
theorem flush_triple {file : File} : Triple (Holds vol finalPath d c pending n) (flush env file)
    ⟨fun _ w => Holds vol finalPath d c none n w ∧ pending = none,
      fun _ w => Holds vol finalPath d c none n w, OnDisk vol finalPath d c⟩ := by
  intro w hw
  unfold flush
  cases pending with
  | some kind =>
    rw [hw.2.1]
    have hlogged : Holds vol finalPath d c (some kind) n
        (w.logged w.tree .flush file.path (some kind)) := hw.logged hw.1
    exact ⟨hlogged.1, rfl, hlogged.2.2⟩
  | none =>
    have hlook : Triple (Holds vol finalPath d c none n)
        (perform env .flush file.path (fun tree => .ok ((), tree)) (fun _ tree => tree))
        ⟨fun _ w => Holds vol finalPath d c none n w ∧ (none : Option IoErrorKind) = none,
          fun _ w => Holds vol finalPath d c none n w, OnDisk vol finalPath d c⟩ := by
      refine (look_triple ?_ (fun _ _ => rfl)).weaken (fun _ h => h)
        ⟨fun _ _ h => ⟨h.1, rfl⟩, fun _ _ h => h.1, fun _ h => h⟩
      intro tree a tree' h
      exact (congrArg Prod.snd (Except.ok.inj h)).symm
    rw [hw.2.1]
    exact hlook w hw

omit hk in
theorem syncAll_triple {file : File} : Triple (Holds vol finalPath d c pending n) (syncAll env file)
    ⟨fun _ w => Holds vol finalPath d c pending n w, fun _ w => Holds vol finalPath d c pending n w,
      OnDisk vol finalPath d c⟩ := by
  refine (look_triple ?_ (fun _ _ => rfl)).weaken (fun _ h => h)
    ⟨fun _ _ h => h.1, fun _ _ h => h.1, fun _ h => h⟩
  intro tree a tree' h
  exact (congrArg Prod.snd (Except.ok.inj h)).symm

/-- A file written in one go is there whole, or the cell holds what it held or a torn copy. -/
theorem writeFile_triple {bytes : Bytes} : Triple (Holds vol finalPath d c pending n)
    (writeFile vol env (cellPath finalPath x) bytes)
    ⟨fun _ w => ∃ readable, Holds vol finalPath d
        (Function.update c x (some (.file bytes readable))) pending n w,
      fun kind w => (∃ o, Holds vol finalPath d (Function.update c x o) pending n w) ∧
        w.trace.head? = some ⟨.writeFile, cellPath finalPath x, some kind⟩,
      fun w => ∃ o, OnDisk vol finalPath d (Function.update c x o) w⟩ := by
  have hsame (w : World) (h : OnDisk vol finalPath d c w) : w.tree.disk vol =
      Function.extend (cellKey vol finalPath) (Function.update c x (c x)) d := by
    rw [Function.update_eq_self]
    exact h
  -- cut short, it has put down a first piece, or not even the name
  have htorn (m : ℕ) (w : World) (h : OnDisk vol finalPath d c w) : ∃ o,
      (((createWith vol (cellPath finalPath x) (bytes.take m) w.tree).toOption).getD w.tree).disk vol =
        Function.extend (cellKey vol finalPath) (Function.update c x o) d := by
    cases hc : createWith vol (cellPath finalPath x) (bytes.take m) w.tree with
    | error kind => exact ⟨c x, hsame w h⟩
    | ok tree =>
      obtain ⟨readable, hd⟩ := createWith_ok hk h hc
      exact ⟨_, hd⟩
  apply perform_triple
  · intro w a tree hw ha
    cases hc : createWith vol (cellPath finalPath x) bytes w.tree with
    | error kind =>
      rw [hc] at ha
      exact absurd ha (by simp [Except.map])
    | ok t =>
      rw [hc] at ha
      cases ha
      obtain ⟨readable, hd⟩ := createWith_ok hk hw.1 hc
      exact ⟨readable, hw.logged hd⟩
  · intro w kind hw _
    exact ⟨⟨c x, hw.logged (hsame w hw.1)⟩, rfl⟩
  · intro w kind m hw _
    cases m with
    | zero => exact ⟨⟨c x, hw.logged (hsame w hw.1)⟩, rfl⟩
    | succ m =>
      obtain ⟨o, ho⟩ := htorn m w hw.1
      exact ⟨⟨o, hw.logged ho⟩, rfl⟩
  · intro w m hw
    cases m with
    | zero => exact ⟨c x, hsame w hw.1⟩
    | succ m =>
      obtain ⟨o, ho⟩ := htorn m w hw.1
      exact ⟨o, ho⟩

/-- A rename moves what one cell leads to over another, or does nothing. -/
theorem rename_triple : Triple (Holds vol finalPath d c pending n)
    (rename vol env (cellPath finalPath x) (cellPath finalPath y))
    ⟨fun _ w => (∃ obj, c x = some obj ∧ Holds vol finalPath d
        (Function.update (Function.update c x none) y (some obj)) pending n w) ∧
        w.trace.head? = some ⟨.rename (cellPath finalPath x), cellPath finalPath y, none⟩,
      fun kind w => Holds vol finalPath d c pending n w ∧
        w.trace.head? = some ⟨.rename (cellPath finalPath x), cellPath finalPath y, some kind⟩,
      OnDisk vol finalPath d c⟩ := by
  apply perform_triple
  · intro w a tree hw ha
    cases hr : renameTo vol (cellPath finalPath x) (cellPath finalPath y) w.tree with
    | error kind =>
      rw [hr] at ha
      exact absurd ha (by simp [Except.map])
    | ok t =>
      rw [hr] at ha
      have ht : t = tree := congrArg Prod.snd (Except.ok.inj ha)
      subst ht
      refine ⟨?_, rfl⟩
      -- taken from the one cell and put into the other
      have hmoved (obj : Obj) (hp : ((w.tree.erase vol (cellPath finalPath x)).erase vol
          (cellPath finalPath y)).put vol (cellPath finalPath y) obj = .ok t) :
          Holds vol finalPath d (Function.update (Function.update c x none) y (some obj)) pending n
            (w.logged t (.rename (cellPath finalPath x)) (cellPath finalPath y) none) := by
        apply hw.logged
        rw [LocalTree.disk_put hp, LocalTree.disk_erase, hw.1.erase hk x, Function.update_idem]
        exact update_extend hk _ d y (some obj)
      unfold renameTo at hr
      rw [hw.1.get hk x] at hr
      split at hr
      · exact absurd hr (by simp)
      · exact absurd hr (by simp)
      · exact absurd hr (by simp)
      · rename_i _ _ obj _ hobj _
        exact ⟨obj, hobj, hmoved obj hr⟩
  · intro w kind hw _
    exact ⟨hw.logged hw.1, rfl⟩
  · intro w kind m hw _
    exact ⟨hw.logged hw.1, rfl⟩
  · intro w m hw
    exact hw.1

end Calls

section Folders

variable {vol : Volume} {env : Weather}

/-- `d'` is `d` with some folders where nothing was, none of them deeper than `depth`. -/
def Grown (depth : ℕ) (d d' : Disk) : Prop :=
  ∀ k, d' k = d k ∨ (d k = none ∧ d' k = some (.dir true) ∧ k.length ≤ depth)

theorem Grown.refl (depth : ℕ) (d : Disk) : Grown depth d d := fun _ => Or.inl rfl

theorem Grown.trans {depth : ℕ} {a b c : Disk} (hab : Grown depth a b) (hbc : Grown depth b c) :
    Grown depth a c := by
  intro k
  rcases hab k with h | ⟨ha, hb, hl⟩
  · rw [← h]
    exact hbc k
  · rcases hbc k with h | ⟨hb', -, -⟩
    · exact Or.inr ⟨ha, h.trans hb, hl⟩
    · rw [hb] at hb'
      exact absurd hb' (by simp)

theorem Grown.keeps {depth : ℕ} {d d' : Disk} (h : Grown depth d d') {key : Key} {obj : Obj}
    (hobj : d key = some obj) : d' key = some obj := by
  rcases h key with hsame | ⟨hnone, -, -⟩
  · rw [hsame, hobj]
  · rw [hnone] at hobj
    exact absurd hobj (by simp)

theorem Grown.file {depth : ℕ} {d d' : Disk} (h : Grown depth d d') {key : Key} {bytes : Bytes}
    {readable : Bool} (hk : d' key = some (.file bytes readable)) :
    d key = some (.file bytes readable) := by
  rcases h key with hsame | ⟨-, hdir, -⟩
  · rw [← hsame, hk]
  · rw [hdir] at hk
    exact absurd hk (by simp)

theorem addDirs_grown {depth : ℕ} (dirs : List (List OsName)) (tree : LocalTree)
    (hlen : ∀ dir ∈ dirs, dir.length ≤ depth)
    (hnew : ∀ dir ∈ dirs, tree.disk vol (vol.foldPath dir) = none)
    (hdiff : dirs.Pairwise (fun a b => a.length ≠ b.length)) :
    Grown depth (tree.disk vol) ((addDirs vol tree dirs).disk vol) := by
  induction dirs generalizing tree with
  | nil => exact Grown.refl depth _
  | cons dir dirs ih =>
    obtain ⟨hd, hdirs⟩ := List.pairwise_cons.mp hdiff
    rw [addDirs]
    split
    · rename_i tree' hput
      have hdisk := LocalTree.disk_put hput
      have hstep : Grown depth (tree.disk vol) (tree'.disk vol) := by
        intro k
        rw [hdisk]
        by_cases hk : k = vol.foldPath dir
        · right
          rw [hk, Function.update_self]
          refine ⟨hnew dir List.mem_cons_self, rfl, ?_⟩
          rw [Volume.foldPath, List.length_map]
          exact hlen dir List.mem_cons_self
        · exact Or.inl (Function.update_of_ne hk _ _)
      refine hstep.trans (ih tree' (fun e he => hlen e (List.mem_cons_of_mem dir he)) ?_ hdirs)
      intro e he
      rw [hdisk, Function.update_of_ne, hnew e (List.mem_cons_of_mem dir he)]
      intro heq
      have hl := congrArg List.length heq
      rw [Volume.foldPath, Volume.foldPath, List.length_map, List.length_map] at hl
      exact hd e he hl.symm
    · exact Grown.refl depth _

theorem inits_lengths (dir : List OsName) :
    dir.inits.Pairwise (fun a b => a.length ≠ b.length) := by
  induction dir with
  | nil => exact List.pairwise_singleton _ _
  | cons name dir ih =>
    rw [List.inits_cons, List.pairwise_cons]
    constructor
    · intro a ha
      obtain ⟨b, -, rfl⟩ := List.mem_map.mp ha
      simp
    · rw [List.pairwise_map]
      exact ih.imp (fun h => by simpa using h)

/-- Creating a folder and those above it only adds folders, however it ends. -/
theorem createDirAll_triple {d : Disk} {dir : List OsName} {R : World → Prop}
    (hR : ∀ w tree op path failure, R w → R (w.logged tree op path failure)) :
    Triple (fun w => w.tree.disk vol = d ∧ R w) (createDirAll vol env dir)
      ⟨fun _ w => Grown dir.length d (w.tree.disk vol) ∧ R w,
        fun _ w => Grown dir.length d (w.tree.disk vol) ∧ R w,
        fun w => Grown dir.length d (w.tree.disk vol)⟩ := by
  -- the folders that are missing are made from the top, and a call may stop after any of them
  have hadd (tree : LocalTree) (dirs : List (List OsName))
      (hsub : dirs.Sublist (missingDirs vol tree dir)) :
      Grown dir.length (tree.disk vol) ((addDirs vol tree dirs).disk vol) := by
    have hinits : dirs.Sublist dir.inits := hsub.trans List.filter_sublist
    apply addDirs_grown
    · intro e he
      exact ((List.mem_inits e dir).mp (hinits.subset he)).length_le
    · intro e he
      have hm := hsub.subset he
      rw [missingDirs, List.mem_filter] at hm
      exact Option.isNone_iff_eq_none.mp hm.2
    · exact (inits_lengths dir).sublist hinits
  apply perform_triple
  · intro w a tree hw ha
    split at ha
    · cases ha
      refine ⟨?_, hR _ _ _ _ _ hw.2⟩
      rw [← hw.1]
      exact hadd w.tree _ (List.Sublist.refl _)
    · exact absurd ha (by simp)
  · intro w kind hw _
    refine ⟨?_, hR _ _ _ _ _ hw.2⟩
    rw [← hw.1]
    exact Grown.refl _ _
  · intro w kind m hw _
    refine ⟨?_, hR _ _ _ _ _ hw.2⟩
    rw [← hw.1]
    change Grown _ _ (LocalTree.disk vol (if _ then _ else _))
    split
    · exact hadd w.tree _ (List.take_sublist _ _)
    · exact Grown.refl _ _
  · intro w m hw
    rw [← hw.1]
    change Grown _ _ (LocalTree.disk vol (if _ then _ else _))
    split
    · exact hadd w.tree _ (List.take_sublist _ _)
    · exact Grown.refl _ _

end Folders

end MtpxCore
