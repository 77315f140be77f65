import Mathlib.Data.List.Nodup
import Mathlib.Data.List.Pairwise
import Ucore.Fs.VfsDev
import Ucore.Lib.Runs

/-!
# The device table over whole runs

`DevOk` is kept by every call, whatever the allocations, `mountfunc` and the file systems do. One lemma for each function says that it
returns, keeps `DevOk`, and has released what it allocated when it failed (`Released`).
-/

namespace Ucore

namespace Vfs

open Runs

variable {isDevice : Nat → Bool} {t t' : DevTable} {v w : Vdev} {devname : Path} {fs devnode : Option Nat} {mountable : Bool}

/-- The blocks that the entries of the table own. -/
def DevTable.blocks (t : DevTable) : List Nat := t.vdevs.flatMap fun v => [v.vdev, v.sDevname]

/-- `mountfunc` was called for an entry without a file system; and when no other entry had the same inode, for a device without one. -/
def MountfuncCall (devname : Path) (dev : Nat) (vdevs : List Vdev) : Prop :=
  (∃ v ∈ vdevs, v.devname = devname ∧ v.devnode = some dev ∧ v.fs = none) ∧
    ((∀ v ∈ vdevs, ∀ w ∈ vdevs, v.devnode = some dev → w.devnode = some dev → v = w) →
      ∀ v ∈ vdevs, v.devnode = some dev → v.fs = none)

/-- The invariant of the device table. -/
structure DevOk (isDevice : Nat → Bool) (t : DevTable) : Prop where
  names : t.vdevs.Pairwise fun v w => v.devname ≠ w.devname
  short : ∀ v ∈ t.vdevs, v.devname.length ≤ FS_MAX_DNAME_LEN
  nodup : t.blocks.Nodup
  owned : ∀ b ∈ t.blocks, b < t.nextBlock
  freed : ∀ b, t.freed b = if b < t.nextBlock ∧ b ∉ t.blocks then 1 else 0
  device : ∀ v ∈ t.vdevs, v.mountable = true → ∃ node, v.devnode = some node ∧ isDevice node = true
  plain : ∀ v ∈ t.vdevs, v.mountable = false → v.devnode ≠ none ∨ v.fs ≠ none
  fixed : ∀ v ∈ t.vdevs, v.mountable = false →
    (v.fs ≠ none ↔ ∃ fs, fs ≠ none ∧ DevEvent.addedFs v.devname fs ∈ t.events) ∧ DevEvent.mounted v.devname ∉ t.events
  mounts : ∀ v ∈ t.vdevs, v.mountable = true →
    (v.fs ≠ none ↔ LaterThan (DevEvent.mounted v.devname) (DevEvent.unmounted v.devname) t.events) ∧
      ∀ fs, DevEvent.addedFs v.devname fs ∉ t.events
  known : ∀ name, ((∃ fs, DevEvent.addedFs name fs ∈ t.events) ∨ DevEvent.mounted name ∈ t.events) →
    ∃ v ∈ t.vdevs, v.devname = name
  calls : ∀ name dev vdevs, DevEvent.mountfunc name dev vdevs ∈ t.events → MountfuncCall name dev vdevs

/-- The entries are as they were, and every block handed out since was freed once. -/
def Released (t t' : DevTable) : Prop :=
  t'.vdevs = t.vdevs ∧ t.nextBlock ≤ t'.nextBlock ∧
    ∀ b, t'.freed b = t.freed b + if t.nextBlock ≤ b ∧ b < t'.nextBlock then 1 else 0

/-! ## Entries are known by their block and by their name -/

theorem DevOk.vdevs_nodup (h : DevOk isDevice t) : (t.vdevs.map Vdev.vdev).Nodup := by
  refine List.pairwise_map.2 ((List.nodup_flatMap.1 h.nodup).2.imp ?_)
  intro v w hvw heq
  exact hvw (a := v.vdev) (by simp) (by simp [heq])

theorem DevOk.eq_of_vdev (h : DevOk isDevice t) (hv : v ∈ t.vdevs) (hw : w ∈ t.vdevs) (hvw : v.vdev = w.vdev) : v = w :=
  List.inj_on_of_nodup_map h.vdevs_nodup hv hw hvw

theorem DevOk.eq_of_devname (h : DevOk isDevice t) (hv : v ∈ t.vdevs) (hw : w ∈ t.vdevs) (hvw : v.devname = w.devname) : v = w :=
  List.inj_on_of_nodup_map (f := fun v => v.devname) (List.pairwise_map.2 h.names) hv hw hvw

theorem devlistInit_ok : DevOk isDevice vfsDevlistInit := by
  constructor <;> simp [vfsDevlistInit, DevTable.blocks]

/-! ## Writing `vdev->fs` -/

theorem mem_setFs {a : Nat} : w ∈ (t.setFs a fs).vdevs ↔ ∃ v ∈ t.vdevs, (if v.vdev = a then { v with fs } else v) = w := by
  simp [DevTable.setFs]

/-- An entry after the write is the one written, or another one as it was. -/
theorem DevOk.of_mem_setFs (h : DevOk isDevice t) (hv : v ∈ t.vdevs) (hw : w ∈ (t.setFs v.vdev fs).vdevs) :
    w = { v with fs } ∨ (w ∈ t.vdevs ∧ w.devname ≠ v.devname) := by
  obtain ⟨u, hu, rfl⟩ := mem_setFs.1 hw
  by_cases huv : u.vdev = v.vdev
  · rw [if_pos huv, h.eq_of_vdev hu hv huv]
    exact Or.inl rfl
  · rw [if_neg huv]
    exact Or.inr ⟨hu, fun hname => huv (congrArg Vdev.vdev (h.eq_of_devname hu hv hname))⟩

theorem blocks_setFs (t : DevTable) (a : Nat) (fs : Option Nat) : (t.setFs a fs).blocks = t.blocks := by
  simp only [DevTable.blocks, DevTable.setFs, List.flatMap_map]
  congr 1
  funext v
  split <;> rfl

/-- Writing what is there changes nothing. -/
theorem DevOk.setFs_same (h : DevOk isDevice t) (hv : v ∈ t.vdevs) : t.setFs v.vdev v.fs = t := by
  have hid : (t.vdevs.map fun w => if w.vdev = v.vdev then { w with fs := v.fs } else w) = t.vdevs := by
    refine (List.map_congr_left fun w hw => ?_).trans (List.map_id _)
    by_cases hwv : w.vdev = v.vdev
    · rw [if_pos hwv, h.eq_of_vdev hw hv hwv]
      rfl
    · rw [if_neg hwv]
      rfl
  rw [DevTable.setFs, hid]

/-- The record of a mount or an unmount, by what is then in `vdev->fs`. -/
def fsEvent (devname : Path) : Option Nat → DevEvent
  | some _ => .mounted devname
  | none => .unmounted devname

theorem laterThan_fsEvent (devname : Path) (fs : Option Nat) (es : List DevEvent) :
    LaterThan (.mounted devname) (.unmounted devname) (fsEvent devname fs :: es) ↔ fs ≠ none := by
  cases fs with
  | none => simpa [fsEvent] using not_laterThan_cons (by simp) es
  | some fs => simpa [fsEvent] using laterThan_cons_self _ _ es

theorem laterThan_fsEvent_other {name devname : Path} (hne : name ≠ devname) (fs : Option Nat) (es : List DevEvent) :
    LaterThan (.mounted name) (.unmounted name) (fsEvent devname fs :: es) ↔ LaterThan (.mounted name) (.unmounted name) es := by
  cases fs with
  | none => exact laterThan_cons (by simp [fsEvent]) (by simpa [fsEvent] using fun h => hne h.symm) es
  | some fs => exact laterThan_cons (by simpa [fsEvent] using fun h => hne h.symm) (by simp [fsEvent]) es

theorem mounted_mem_fsEvent {name : Path} {es : List DevEvent} (h : DevEvent.mounted name ∈ fsEvent devname fs :: es) :
    name = devname ∨ DevEvent.mounted name ∈ es := by
  cases fs with
  | none => exact Or.inr (by simpa [fsEvent] using h)
  | some fs => simpa [fsEvent] using h

theorem addedFs_mem_fsEvent {name : Path} {fs' : Option Nat} {es : List DevEvent} :
    DevEvent.addedFs name fs' ∈ fsEvent devname fs :: es ↔ DevEvent.addedFs name fs' ∈ es := by
  cases fs <;> simp [fsEvent]

theorem mountfunc_mem_fsEvent {name : Path} {dev : Nat} {vdevs : List Vdev} {es : List DevEvent} :
    DevEvent.mountfunc name dev vdevs ∈ fsEvent devname fs :: es ↔ DevEvent.mountfunc name dev vdevs ∈ es := by
  cases fs <;> simp [fsEvent]

/-- A mount or an unmount of a mountable entry keeps the invariant. -/
theorem DevOk.setFs (h : DevOk isDevice t) (hv : v ∈ t.vdevs) (hm : v.mountable = true) (fs : Option Nat) :
    DevOk isDevice ((t.setFs v.vdev fs).log (fsEvent v.devname fs)) where
  names := by
    refine List.pairwise_map.2 (h.names.imp ?_)
    intro a b hab
    split <;> split <;> exact hab
  short := by
    intro w hw
    obtain ⟨u, hu, rfl⟩ := mem_setFs.1 hw
    split <;> exact h.short u hu
  nodup := (blocks_setFs t v.vdev fs).symm ▸ h.nodup
  owned := by
    intro b hb
    exact h.owned b (blocks_setFs t v.vdev fs ▸ hb)
  freed := by
    intro b
    exact (blocks_setFs t v.vdev fs).symm ▸ h.freed b
  device := by
    intro w hw hwm
    rcases h.of_mem_setFs hv hw with rfl | ⟨hw, _⟩
    · exact h.device v hv hm
    · exact h.device w hw hwm
  plain := by
    intro w hw hwm
    rcases h.of_mem_setFs hv hw with rfl | ⟨hw, _⟩
    · exact absurd (hm.symm.trans hwm) (by simp)
    · exact h.plain w hw hwm
  fixed := by
    intro w hw hwm
    rcases h.of_mem_setFs hv hw with rfl | ⟨hw, hne⟩
    · exact absurd (hm.symm.trans hwm) (by simp)
    · obtain ⟨hfs, hmounted⟩ := h.fixed w hw hwm
      refine ⟨hfs.trans (exists_congr fun fs' => and_congr_right' addedFs_mem_fsEvent.symm), ?_⟩
      intro hmem
      rcases mounted_mem_fsEvent hmem with hname | hmem
      · exact hne hname
      · exact hmounted hmem
  mounts := by
    intro w hw hwm
    rcases h.of_mem_setFs hv hw with rfl | ⟨hw, hne⟩
    · exact ⟨(laterThan_fsEvent v.devname fs t.events).symm, fun fs' hmem => (h.mounts v hv hm).2 fs' (addedFs_mem_fsEvent.1 hmem)⟩
    · obtain ⟨hfs, hadded⟩ := h.mounts w hw hwm
      exact ⟨hfs.trans (laterThan_fsEvent_other hne fs t.events).symm, fun fs' hmem => hadded fs' (addedFs_mem_fsEvent.1 hmem)⟩
  known := by
    intro name hmem
    have hold : ∃ u ∈ t.vdevs, u.devname = name := by
      rcases hmem with ⟨fs', hmem⟩ | hmem
      · exact h.known name (Or.inl ⟨fs', addedFs_mem_fsEvent.1 hmem⟩)
      · rcases mounted_mem_fsEvent hmem with rfl | hmem
        · exact ⟨v, hv, rfl⟩
        · exact h.known name (Or.inr hmem)
    obtain ⟨u, hu, hname⟩ := hold
    refine ⟨_, mem_setFs.2 ⟨u, hu, rfl⟩, ?_⟩
    split <;> exact hname
  calls := by
    intro name dev vdevs hmem
    exact h.calls name dev vdevs (mountfunc_mem_fsEvent.1 hmem)

/-- A call of `mountfunc` for an entry without a file system may be recorded. -/
theorem DevOk.log_mountfunc (h : DevOk isDevice t) (hv : v ∈ t.vdevs) (hfs : v.fs = none) {dev : Nat} (hdev : v.devnode = some dev) :
    DevOk isDevice (t.log (.mountfunc v.devname dev t.vdevs)) where
  names := h.names
  short := h.short
  nodup := h.nodup
  owned := h.owned
  freed := h.freed
  device := h.device
  plain := h.plain
  fixed := by
    intro w hw hwm
    obtain ⟨hwfs, hmounted⟩ := h.fixed w hw hwm
    exact ⟨hwfs.trans (by simp [DevTable.log]), by simpa [DevTable.log] using hmounted⟩
  mounts := by
    intro w hw hwm
    obtain ⟨hwfs, hadded⟩ := h.mounts w hw hwm
    exact ⟨hwfs.trans (laterThan_cons (by simp) (by simp) t.events).symm, by simpa [DevTable.log] using hadded⟩
  known := by
    intro name hmem
    exact h.known name (by simpa [DevTable.log] using hmem)
  calls := by
    intro name dev' vdevs hmem
    rcases List.mem_cons.1 hmem with heq | hmem
    · obtain ⟨rfl, rfl, rfl⟩ := DevEvent.mountfunc.inj heq
      refine ⟨⟨v, hv, rfl, hdev, hfs⟩, ?_⟩
      intro hone w hw hwdev
      rw [← hone v hv w hw hdev hwdev]
      exact hfs
    · exact h.calls name dev' vdevs hmem

/-! ## `vfs_do_add` -/

theorem Released.refl (t : DevTable) : Released t t :=
  ⟨rfl, Nat.le_refl _, by intro b; simp⟩

theorem checkDevnameConflict_iff (t : DevTable) (devname : Path) :
    checkDevnameConflict t devname = true ↔ ∀ v ∈ t.vdevs, v.devname ≠ devname := by
  simp [checkDevnameConflict]

theorem kmalloc_true (t : DevTable) : t.kmalloc true = ({ t with nextBlock := t.nextBlock + 1 }, some t.nextBlock) := rfl

/-- `vfs_do_add` fails and gives back its blocks, or puts a new entry with a new name in front. -/
theorem vfsDoAdd_spec (isDevice : Nat → Bool) (devnode : Option Nat) (mountable : Bool) (mem : Memory) (t : DevTable) (devname : Path) (fs : Option Nat) (h : devnodeOk isDevice devnode mountable = true) :
    ∃ t' ret, vfsDoAdd isDevice mem t devname devnode fs mountable = .ok (t', ret) ∧
      ((ret ≠ 0 ∧ Released t t' ∧ t'.events = t.events) ∨
        (ret = 0 ∧ devname.length ≤ FS_MAX_DNAME_LEN ∧ (∀ v ∈ t.vdevs, v.devname ≠ devname) ∧
          t' = { t with
            vdevs := ⟨⟨devname, devnode, fs, mountable⟩, t.nextBlock + 1, t.nextBlock⟩ :: t.vdevs
            nextBlock := t.nextBlock + 2 })) := by
  obtain ⟨strdup, kmalloc⟩ := mem
  simp only [vfsDoAdd, h, not_true_eq_false, if_false]
  by_cases hlen : FS_MAX_DNAME_LEN < devname.length
  · rw [if_pos hlen]
    exact ⟨_, _, rfl, Or.inl ⟨by decide, Released.refl t, rfl⟩⟩
  rw [if_neg hlen]
  cases strdup with
  | false => exact ⟨_, _, rfl, Or.inl ⟨by decide, Released.refl t, rfl⟩⟩
  | true =>
    cases kmalloc with
    | false =>
      refine ⟨_, _, rfl, Or.inl ⟨by decide, ⟨rfl, Nat.le_succ _, ?_⟩, rfl⟩⟩
      intro b
      by_cases hb : b = t.nextBlock
      · simp [DevTable.kfree, hb]
      · have hno : ¬(t.nextBlock ≤ b ∧ b < t.nextBlock + 1) := by omega
        refine (Function.update_of_ne hb _ _).trans ?_
        exact (if_neg hno).symm ▸ (Nat.add_zero _).symm
    | true =>
      simp only [kmalloc_true]
      by_cases hc : checkDevnameConflict t devname = true
      · have hnames := (checkDevnameConflict_iff t devname).1 hc
        refine ⟨_, 0, if_neg (fun hn => hn hc), Or.inr ⟨rfl, Nat.le_of_not_lt hlen, hnames, rfl⟩⟩
      · refine ⟨_, -E_EXISTS, if_pos hc, Or.inl ⟨by decide, ⟨rfl, Nat.le_add_right _ 2, ?_⟩, rfl⟩⟩
        intro b
        by_cases hb : b = t.nextBlock
        · have hlt : t.nextBlock < t.nextBlock + 1 + 1 := by omega
          simp [DevTable.kfree, hb, hlt]
        · by_cases hb' : b = t.nextBlock + 1
          · simp [DevTable.kfree, hb']
          · have hno : ¬(t.nextBlock ≤ b ∧ b < t.nextBlock + 1 + 1) := by omega
            refine (Function.update_of_ne hb _ _).trans ((Function.update_of_ne hb' _ _).trans ?_)
            exact (if_neg hno).symm ▸ (Nat.add_zero _).symm

/-- A failed call keeps the invariant. -/
theorem DevOk.released (h : DevOk isDevice t) (hr : Released t t') (he : t'.events = t.events) : DevOk isDevice t' := by
  obtain ⟨hv, hle, hf⟩ := hr
  have hb : t'.blocks = t.blocks := by rw [DevTable.blocks, DevTable.blocks, hv]
  refine ⟨hv.symm ▸ h.names, hv.symm ▸ h.short, hb.symm ▸ h.nodup, ?_, ?_, hv.symm ▸ h.device, hv.symm ▸ h.plain,
    ?_, ?_, ?_, he.symm ▸ h.calls⟩
  · intro b hmem
    exact Nat.lt_of_lt_of_le (h.owned b (hb ▸ hmem)) hle
  · intro b
    rw [hf, h.freed, hb]
    have hown := h.owned b
    by_cases hmem : b ∈ t.blocks
    · have hlt := hown hmem
      simp [hmem, Nat.not_le.2 hlt]
    · by_cases hlt : b < t.nextBlock
      · simp [hmem, hlt, Nat.not_le.2 hlt, Nat.lt_of_lt_of_le hlt hle]
      · simp [hmem, hlt, Nat.le_of_not_lt hlt]
  · rw [hv, he]
    exact h.fixed
  · rw [hv, he]
    exact h.mounts
  · rw [hv, he]
    exact h.known

/-- A new entry of either kind keeps the invariant. -/
theorem DevOk.add (h : DevOk isDevice t) (hlen : devname.length ≤ FS_MAX_DNAME_LEN) (hnew : ∀ v ∈ t.vdevs, v.devname ≠ devname)
    {e : DevEvent} (he : (e = .addedFs devname fs ∧ fs ≠ none ∧ mountable = false) ∨
      (e = .addedDev devname ∧ fs = none ∧ ∃ node, devnode = some node ∧ isDevice node = true)) :
    DevOk isDevice (DevTable.log { t with
      vdevs := ⟨⟨devname, devnode, fs, mountable⟩, t.nextBlock + 1, t.nextBlock⟩ :: t.vdevs
      nextBlock := t.nextBlock + 2 } e) := by
  have hmounted : ∀ name, DevEvent.mounted name ∈ e :: t.events ↔ DevEvent.mounted name ∈ t.events := by
    intro name
    rcases he with ⟨rfl, _⟩ | ⟨rfl, _⟩ <;> simp
  have hlater : ∀ name, LaterThan (.mounted name) (.unmounted name) (e :: t.events) ↔
      LaterThan (.mounted name) (.unmounted name) t.events := by
    intro name
    rcases he with ⟨rfl, _⟩ | ⟨rfl, _⟩ <;> exact laterThan_cons (by simp) (by simp) t.events
  have hadded : ∀ name fs', name ≠ devname → (DevEvent.addedFs name fs' ∈ e :: t.events ↔ DevEvent.addedFs name fs' ∈ t.events) := by
    intro name fs' hne
    rcases he with ⟨rfl, _⟩ | ⟨rfl, _⟩ <;> simp [hne]
  have hunknown : ∀ fs', DevEvent.addedFs devname fs' ∉ t.events := by
    intro fs' hmem
    obtain ⟨v, hv, hname⟩ := h.known devname (Or.inl ⟨fs', hmem⟩)
    exact hnew v hv hname
  have hnever : DevEvent.mounted devname ∉ t.events := by
    intro hmem
    obtain ⟨v, hv, hname⟩ := h.known devname (Or.inr hmem)
    exact hnew v hv hname
  constructor
  case names => exact List.pairwise_cons.2 ⟨fun v hv heq => hnew v hv heq.symm, h.names⟩
  case short => exact List.forall_mem_cons.2 ⟨hlen, h.short⟩
  case nodup =>
    have hfresh : ∀ b, t.nextBlock ≤ b → b ∉ t.blocks := fun b hb hmem => Nat.not_lt.2 hb (h.owned b hmem)
    refine List.nodup_cons.2 ⟨?_, List.nodup_cons.2 ⟨hfresh _ (Nat.le_refl _), h.nodup⟩⟩
    intro hmem
    rcases List.mem_cons.1 hmem with heq | hmem
    · exact Nat.succ_ne_self _ heq
    · exact hfresh _ (Nat.le_succ _) hmem
  case owned =>
    intro b hmem
    simp only [DevTable.log, DevTable.blocks, List.flatMap_cons, List.mem_append, List.mem_cons, List.not_mem_nil, or_false] at hmem ⊢
    rcases hmem with (rfl | rfl) | hmem
    · omega
    · omega
    · have := h.owned b hmem
      omega
  case freed =>
    intro b
    have hown := h.owned b
    have hmem : b ∈ DevTable.blocks (DevTable.log { t with
        vdevs := ⟨⟨devname, devnode, fs, mountable⟩, t.nextBlock + 1, t.nextBlock⟩ :: t.vdevs
        nextBlock := t.nextBlock + 2 } e) ↔ b = t.nextBlock + 1 ∨ b = t.nextBlock ∨ b ∈ t.blocks := by
      simp [DevTable.blocks, DevTable.log]
    refine (h.freed b).trans ?_
    simp only [hmem]
    by_cases hold : b ∈ t.blocks
    · simp [hold]
    · by_cases hlt : b < t.nextBlock
      · have h1 : b ≠ t.nextBlock + 1 := by omega
        have h2 : b ≠ t.nextBlock := by omega
        have h3 : b < t.nextBlock + 2 := by omega
        simp [DevTable.log, hold, hlt, h1, h2, h3]
      · have hno : ¬(b < t.nextBlock + 2 ∧ ¬(b = t.nextBlock + 1 ∨ b = t.nextBlock ∨ b ∈ t.blocks)) := by omega
        simp only [DevTable.log, hlt, false_and, if_false]
        exact (if_neg hno).symm
  case device =>
    refine List.forall_mem_cons.2 ⟨?_, h.device⟩
    intro hm
    rcases he with ⟨_, _, hm'⟩ | ⟨_, _, hnode⟩
    · exact absurd (hm.symm.trans hm') (by simp)
    · exact hnode
  case plain =>
    refine List.forall_mem_cons.2 ⟨?_, h.plain⟩
    intro _
    rcases he with ⟨_, hfs, _⟩ | ⟨_, _, node, hnode, _⟩
    · exact Or.inr hfs
    · exact Or.inl (by simp [hnode])
  case fixed =>
    refine List.forall_mem_cons.2 ⟨?_, ?_⟩
    · intro _
      refine ⟨?_, fun hmem => hnever ((hmounted _).1 hmem)⟩
      rcases he with ⟨rfl, hfs, _⟩ | ⟨rfl, hfs, _⟩
      · exact ⟨fun _ => ⟨fs, hfs, List.mem_cons_self⟩, fun _ => hfs⟩
      · refine ⟨fun hne => (hne hfs).elim, ?_⟩
        rintro ⟨fs', _, hmem⟩
        exact (hunknown fs' (by simpa [DevTable.log] using hmem)).elim
    · intro v hv hm
      obtain ⟨hfs, hno⟩ := h.fixed v hv hm
      exact ⟨hfs.trans (exists_congr fun fs' => and_congr_right' (hadded v.devname fs' (hnew v hv)).symm),
        fun hmem => hno ((hmounted _).1 hmem)⟩
  case mounts =>
    refine List.forall_mem_cons.2 ⟨?_, ?_⟩
    · intro hm
      rcases he with ⟨_, _, hm'⟩ | ⟨rfl, hfs, _⟩
      · exact absurd (hm.symm.trans hm') (by simp)
      · refine ⟨⟨fun hne => (hne hfs).elim, fun hl => (hnever ((hlater _).1 hl).mem).elim⟩, ?_⟩
        intro fs' hmem
        exact hunknown fs' (by simpa [DevTable.log] using hmem)
    · intro v hv hm
      obtain ⟨hfs, hno⟩ := h.mounts v hv hm
      exact ⟨hfs.trans (hlater _).symm, fun fs' hmem => hno fs' ((hadded v.devname fs' (hnew v hv)).1 hmem)⟩
  case known =>
    intro name hmem
    by_cases hname : name = devname
    · exact ⟨_, List.mem_cons_self, hname.symm⟩
    · have hold : (∃ fs', DevEvent.addedFs name fs' ∈ t.events) ∨ DevEvent.mounted name ∈ t.events := by
        rcases hmem with ⟨fs', hmem⟩ | hmem
        · exact Or.inl ⟨fs', (hadded name fs' hname).1 hmem⟩
        · exact Or.inr ((hmounted name).1 hmem)
      obtain ⟨v, hv, hvn⟩ := h.known name hold
      exact ⟨v, List.mem_cons_of_mem _ hv, hvn⟩
  case calls =>
    intro name dev vdevs hmem
    refine h.calls name dev vdevs ?_
    rcases he with ⟨rfl, _⟩ | ⟨rfl, _⟩ <;> simpa [DevTable.log] using hmem

/-! ## One lemma for each call -/

/-- The call returns and keeps the invariant; when it failed, it changed no entry and gave back its blocks. -/
def Keeps (isDevice : Nat → Bool) (t : DevTable) (r : Except DevFault (DevTable × Int)) : Prop :=
  ∃ t' ret, r = .ok (t', ret) ∧ DevOk isDevice t' ∧ (ret ≠ 0 → Released t t')

theorem vfsAddFs_keeps (h : DevOk isDevice t) (mem : Memory) (devname : Path) (hfs : fs ≠ none) :
    Keeps isDevice t (vfsAddFs isDevice mem t devname fs) := by
  obtain ⟨t', ret, hadd, hcase⟩ := vfsDoAdd_spec isDevice none false mem t devname fs rfl
  rw [vfsAddFs, hadd, ok_bind]
  rcases hcase with ⟨hret, hrel, hev⟩ | ⟨rfl, hlen, hnew, rfl⟩
  · simp only [if_neg hret]
    exact ⟨_, _, rfl, h.released hrel hev, fun _ => hrel⟩
  · exact ⟨_, _, rfl, h.add hlen hnew (Or.inl ⟨rfl, hfs, rfl⟩), fun hn => (hn rfl).elim⟩

theorem vfsAddDev_keeps (h : DevOk isDevice t) (mem : Memory) (devname : Path) {node : Nat} (hnode : isDevice node = true)
    (mountable : Bool) : Keeps isDevice t (vfsAddDev isDevice mem t devname (some node) mountable) := by
  obtain ⟨t', ret, hadd, hcase⟩ := vfsDoAdd_spec isDevice (some node) mountable mem t devname none hnode
  rw [vfsAddDev, hadd, ok_bind]
  rcases hcase with ⟨hret, hrel, hev⟩ | ⟨rfl, hlen, hnew, rfl⟩
  · simp only [if_neg hret]
    exact ⟨_, _, rfl, h.released hrel hev, fun _ => hrel⟩
  · exact ⟨_, _, rfl, h.add hlen hnew (Or.inr ⟨rfl, rfl, node, rfl, hnode⟩), fun hn => (hn rfl).elim⟩

/-- What `find_mount` finds. -/
theorem findMount_some (h : findMount t devname = some v) : v ∈ t.vdevs ∧ v.mountable = true ∧ v.devname = devname := by
  have hp := List.find?_some h
  simp only [decide_eq_true_eq] at hp
  exact ⟨List.mem_of_find?_eq_some h, hp.1, hp.2⟩

theorem vfsMount_keeps (h : DevOk isDevice t) (devname : Path) {mountfunc : Nat → Option Nat → Int × Option Nat}
    (hfun : (DevOp.mount devname mountfunc).Admits isDevice) : Keeps isDevice t (vfsMount isDevice t devname mountfunc) := by
  rw [vfsMount]
  cases hfind : findMount t devname with
  | none => exact ⟨_, _, rfl, h, fun _ => Released.refl t⟩
  | some v =>
    obtain ⟨hv, hm, _⟩ := findMount_some hfind
    simp only
    by_cases hfs : v.fs = none
    · obtain ⟨dev, hdev, hisdev⟩ := h.device v hv hm
      have hfilter : v.devnode.filter isDevice = some dev := by simp [hdev, Option.filter, hisdev]
      have hcalled := h.log_mountfunc hv hfs hdev
      rw [if_neg (fun hn => hn hfs), if_neg (fun hn => hn hm), hfilter]
      obtain ⟨hset, halone⟩ := hfun dev v.fs
      simp only
      cases hcall : mountfunc dev v.fs with
      | mk ret fs =>
        rw [hcall] at hset halone
        simp only
        by_cases hret : ret = 0
        · obtain ⟨fs', rfl⟩ := Option.ne_none_iff_exists'.1 (hset hret)
          rw [if_pos hret, if_neg (by simp)]
          exact ⟨_, _, rfl, hcalled.setFs hv hm (some fs'), fun hn => (hn hret).elim⟩
        · obtain rfl : fs = v.fs := halone hret
          rw [if_neg hret, hcalled.setFs_same hv]
          exact ⟨_, _, rfl, hcalled, fun _ => Released.refl t⟩
    · rw [if_pos hfs]
      exact ⟨_, _, rfl, h, fun _ => Released.refl t⟩

theorem vfsUnmount_keeps (h : DevOk isDevice t) (ops : FsOps) (devname : Path) : Keeps isDevice t (vfsUnmount ops t devname) := by
  have hfailed : ∀ ret, Keeps isDevice t (.ok (t, ret)) := fun ret => ⟨t, ret, rfl, h, fun _ => Released.refl t⟩
  rw [vfsUnmount]
  cases hfind : findMount t devname with
  | none => exact hfailed _
  | some v =>
    obtain ⟨hv, hm, _⟩ := findMount_some hfind
    cases hfs : v.fs with
    | none =>
      simp only [hfs]
      exact hfailed _
    | some fs =>
      simp only [hfs]
      rw [if_neg (fun hn => hn hm)]
      by_cases hsync : ops.fsopSync v.vdev fs = 0
      · rw [if_neg (fun hn => hn hsync)]
        by_cases hun : ops.fsopUnmount v.vdev fs = 0
        · rw [if_pos hun]
          exact ⟨_, _, rfl, h.setFs hv hm none, fun hn => (hn hun).elim⟩
        · rw [if_neg hun]
          exact hfailed _
      · rw [if_pos hsync]
        exact hfailed _

/-- One round of the loop of `vfs_unmount_all` keeps the invariant and the other entries. -/
theorem DevOk.unmountEntry (h : DevOk isDevice t) (ops : FsOps) (hv : v ∈ t.vdevs) :
    DevOk isDevice (unmountEntry ops t v) ∧ ∀ w ∈ t.vdevs, w.vdev ≠ v.vdev → w ∈ (unmountEntry ops t v).vdevs := by
  have hsame : DevOk isDevice t ∧ ∀ w ∈ t.vdevs, w.vdev ≠ v.vdev → w ∈ t.vdevs := ⟨h, fun w hw _ => hw⟩
  rw [Vfs.unmountEntry]
  cases v.fs with
  | none => exact hsame
  | some fs =>
    simp only
    cases hm : v.mountable with
    | false => exact hsame
    | true =>
      by_cases hsync : ops.fsopSync v.vdev fs = 0
      · by_cases hun : ops.fsopUnmount v.vdev fs = 0
        · rw [if_neg (by simp), if_neg (fun hn => hn hsync), if_neg (fun hn => hn hun)]
          refine ⟨h.setFs hv hm none, ?_⟩
          intro w hw hne
          exact mem_setFs.2 ⟨w, hw, if_neg hne⟩
        · rw [if_neg (by simp), if_neg (fun hn => hn hsync), if_pos hun]
          exact hsame
      · rw [if_neg (by simp), if_pos hsync]
        exact hsame

/-- The loop of `vfs_unmount_all`, by induction on the entries still to come, which are as they were. -/
theorem DevOk.unmountLoop (ops : FsOps) (vs : List Vdev) : ∀ t, DevOk isDevice t → (vs.map Vdev.vdev).Nodup → (∀ v ∈ vs, v ∈ t.vdevs) →
    DevOk isDevice (vs.foldl (Vfs.unmountEntry ops) t) := by
  induction vs with
  | nil =>
    intro t h _ _
    exact h
  | cons v vs ih =>
    intro t h hnd hmem
    obtain ⟨hv, hvs⟩ := List.forall_mem_cons.1 hmem
    obtain ⟨hnot, hnd⟩ := List.nodup_cons.1 hnd
    obtain ⟨hok, hrest⟩ := h.unmountEntry ops hv
    refine ih _ hok hnd ?_
    intro w hw
    exact hrest w (hvs w hw) (fun heq => hnot (heq ▸ List.mem_map_of_mem hw))

theorem vfsUnmountAll_keeps (h : DevOk isDevice t) (ops : FsOps) : Keeps isDevice t (vfsUnmountAll ops t) :=
  ⟨_, 0, rfl, DevOk.unmountLoop ops t.vdevs t h h.vdevs_nodup (fun _ hv => hv), fun hn => (hn rfl).elim⟩

/-- Every call that its callers may make. -/
theorem devCall_keeps (h : DevOk isDevice t) {op : DevOp} (hop : op.Admits isDevice) : Keeps isDevice t (devCall isDevice t op) := by
  cases op with
  | addFs mem devname fs => exact vfsAddFs_keeps h mem devname hop
  | addDev mem devname devnode mountable =>
    obtain ⟨node, rfl, hnode⟩ := hop
    exact vfsAddDev_keeps h mem devname hnode mountable
  | mount devname mountfunc => exact vfsMount_keeps h devname hop
  | unmount ops devname => exact vfsUnmount_keeps h ops devname
  | unmountAll ops => exact vfsUnmountAll_keeps h ops

/-! ## Runs -/

/-- The states of the runs whose calls are made as the callers make them. -/
def DevReached (isDevice : Nat → Bool) : DevTable → Prop :=
  Reached (· = vfsDevlistInit) (fun _ op => op.Admits isDevice) (devStep isDevice)

theorem DevReached.devOk (h : DevReached isDevice t) : DevOk isDevice t := by
  refine h.invariant (DevOk isDevice) ?_ ?_
  · rintro _ rfl
    exact devlistInit_ok
  · intro t op t' hok hop hstep
    obtain ⟨t1, ret, hcall, hok', _⟩ := devCall_keeps hok hop
    simp only [devStep, hcall, Except.toOption, Option.map_some, Option.some.injEq] at hstep
    exact hstep ▸ hok'

/-- The end of `vfs_get_root`: one more reference, or the count is at its largest value. -/
theorem inodeRefInc_cases {ι : Type} (s : VfsState ι) (node : Nat) :
    (∃ s', inodeRefInc s node = .ok s') ∨ inodeRefInc s node = .error .overflow := by
  unfold inodeRefInc
  split
  · exact Or.inr rfl
  · exact Or.inl ⟨_, rfl⟩

/-- The call hands back an inode if and only if `P`; it goes wrong only where a reference count is at its largest value. -/
def ReturnsIff {ι : Type} (r : Except VfsFault (VfsState ι × Except Int Nat)) (P : Prop) : Prop :=
  (∀ fault, r = .error fault → fault = .overflow) ∧ ∀ s' ret, r = .ok (s', ret) → ((∃ node, ret = .ok node) ↔ P)

theorem refInc_returns {ι : Type} (s : VfsState ι) (node : Nat) {P : Prop} (hP : P) :
    ReturnsIff (inodeRefInc s node >>= fun s => .ok (s, .ok node)) P := by
  rcases inodeRefInc_cases s node with ⟨s1, h⟩ | h
  · rw [h, ok_bind]
    refine ⟨fun fault he => (by cases he), ?_⟩
    intro s' r hr
    cases hr
    exact ⟨fun _ => hP, fun _ => ⟨node, rfl⟩⟩
  · rw [h, error_bind]
    refine ⟨?_, fun s' r hr => (by cases hr)⟩
    intro fault he
    cases he
    rfl

theorem error_returns {ι : Type} (s : VfsState ι) (ret : Int) {P : Prop} (hP : ¬P) : ReturnsIff (.ok (s, .error ret)) P := by
  refine ⟨fun fault he => (by cases he), ?_⟩
  intro s' r hr
  cases hr
  exact ⟨fun ⟨node, h⟩ => (by cases h), fun h => (hP h).elim⟩

/-- `vfs_get_root`, for a list of devices with distinct names none of which lacks both a file system and an inode. -/
theorem vfsGetRoot_iff {ι : Type} {s : VfsState ι} (ops : InodeOps) (hnames : s.vdevList.Pairwise fun v w => v.devname ≠ w.devname)
    (hplain : ∀ v ∈ s.vdevList, v.mountable = false → v.devnode ≠ none ∨ v.fs ≠ none) (devname : Path) :
    ReturnsIff (vfsGetRoot ops s devname) (∃ v ∈ s.vdevList, v.devname = devname ∧ (v.fs ≠ none ∨ v.mountable = false)) := by
  unfold vfsGetRoot
  cases hfind : s.vdevList.find? (fun v => v.devname = devname) with
  | none =>
    refine error_returns s _ ?_
    rintro ⟨v, hv, hname, _⟩
    exact List.find?_eq_none.1 hfind v hv (by simpa using hname)
  | some v =>
    have hv : v ∈ s.vdevList := List.mem_of_find?_eq_some hfind
    have hname : v.devname = devname := by simpa using List.find?_some hfind
    cases hfs : v.fs with
    | some fs =>
      simp only [hfs]
      exact refInc_returns s (ops.fsopGetRoot fs) ⟨v, hv, hname, Or.inl (by simp [hfs])⟩
    | none =>
      simp only [hfs]
      cases hm : v.mountable with
      | true =>
        refine error_returns s _ ?_
        rintro ⟨w, hw, hwname, hwfs⟩
        have hwv : w = v := List.inj_on_of_nodup_map (f := fun v => v.devname) (List.pairwise_map.2 hnames) hw hv (hwname.trans hname.symm)
        subst hwv
        rcases hwfs with hwfs | hwm
        · exact hwfs hfs
        · exact absurd (hm.symm.trans hwm) (by simp)
      | false =>
        rcases hplain v hv hm with hdev | hne
        · obtain ⟨node, hnode⟩ := Option.ne_none_iff_exists'.1 hdev
          simp only [hnode]
          exact refInc_returns s node ⟨v, hv, hname, Or.inr hm⟩
        · exact (hne hfs).elim

end Vfs

end Ucore
