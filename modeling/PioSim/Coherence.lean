import PioSim.Calls
import PioSim.Arbitration
import Mathlib.Data.List.Basic

/-!
# Pad coherence

`pinDirs` caches the outcome of the direction arbitration, and the function masks cache FUNCSEL.
`Coherent` says that both caches are up to date in every pad set a block points at. The calls that
resolve the pads of the block whose claims they change keep it; `pio_sim_sm_init`, `pio_sim_init`
and `pio_sim_group_init_shared` do not resolve, and keep it only where no pin changes hands.
-/

namespace PioSim

variable [Platform]

namespace Pads

/-- What direction arbitration and its cache are made of in a pad set. -/
def dirView (p : Pads) : Mask × (ℕ → ℕ) × (ℕ → Mask) × Mask × List BlockAddr :=
  (p.pinDirs, p.funcsel, p.pioFuncMask, p.periphSelMask, p.owners)

/-- The function masks are those of FUNCSEL on the pins the chip has. -/
def MuxCached (p : Pads) : Prop :=
  ∀ pin < numPins, (∀ o, (p.pioFuncMask o).getLsbD pin = selectsPio o (p.funcsel pin)) ∧
    p.periphSelMask.getLsbD pin = selectsPeriph (p.funcsel pin)

omit [Platform] in
theorem mem_drivers {p : Pads} {d : Driver} (h : d ∈ p.drivers) : d.1 ∈ p.owners := by
  simp only [drivers, slots, List.mem_flatMap, List.mem_map, List.mem_finRange, true_and] at h
  obtain ⟨bo, hbo, s, rfl⟩ := h
  exact List.fst_mem_of_mem_zipIdx hbo

omit [Platform] in
/-- Direction arbitration only reads the claims of the owners. -/
theorem resolvedDirs_congr {p q : Pads} {sm sm' : BlockAddr → Fin 4 → Sm}
    (hp : q.dirView = p.dirView)
    (hsm : ∀ o ∈ p.owners, ∀ i, (sm' o i).dirView = (sm o i).dirView) :
    q.resolvedDirs sm' = p.resolvedDirs sm := by
  simp only [dirView, Prod.mk.injEq] at hp
  obtain ⟨-, -, hmask, -, howners⟩ := hp
  have hview : ∀ d ∈ p.drivers, (sm' d.1 d.2.2).enabled = (sm d.1 d.2.2).enabled ∧
      q.drivenBy sm' d = p.drivenBy sm d ∧
      (sm' d.1 d.2.2).pins.outPinOe = (sm d.1 d.2.2).pins.outPinOe := by
    intro d hd
    have h := hsm d.1 (mem_drivers hd) d.2.2
    simp only [Sm.dirView, Prod.mk.injEq] at h
    exact ⟨h.1, by rw [drivenBy, drivenBy, h.2.1, hmask], h.2.2⟩
  have hdrivers : q.drivers = p.drivers := by rw [drivers, drivers, slots, slots, howners]
  simp only [resolvedDirs, hdrivers]
  refine (List.foldl_ext _ _ _ fun oe d hd => ?_).trans
    (congrArg (fun oe : Mask => p.drivers.foldl _ oe) (List.foldl_ext _ _ _ fun oe d hd => ?_))
  · rw [(hview d hd).1, (hview d hd).2.1, (hview d hd).2.2]
  · rw [(hview d hd).1, (hview d hd).2.1, (hview d hd).2.2]

theorem MuxCached.congr {p q : Pads} (hp : q.dirView = p.dirView) (h : p.MuxCached) :
    q.MuxCached := by
  simp only [dirView, Prod.mk.injEq] at hp
  obtain ⟨-, hsel, hmask, hper, -⟩ := hp
  intro pin hpin
  rw [hsel, hmask, hper]
  exact h pin hpin

theorem muxCached_refreshFuncMasks (p : Pads) : p.refreshFuncMasks.MuxCached := by
  intro pin hpin
  refine ⟨fun o => ?_, ?_⟩
  · exact (getLsbD_funcMask p (selectsPio o) pin).trans (by simp [hpin, refreshFuncMasks])
  · exact (getLsbD_funcMask p selectsPeriph pin).trans (by simp [hpin, refreshFuncMasks])

theorem muxCached_initDefaults (owners : List BlockAddr) : (initDefaults owners).MuxCached := by
  intro pin hpin
  have hlt : pin < 64 := by have := numPins_le; omega
  refine ⟨fun o => ?_, ?_⟩
  · have hmask : ((initDefaults owners).pioFuncMask o).getLsbD pin = true := by
      rw [initDefaults, BitVec.getLsbD_allOnes, decide_eq_true hlt]
    rw [hmask]
    simp [initDefaults, selectsPio]
  · simp [initDefaults, selectsPeriph]

end Pads

namespace World

structure CoherentAt (w : World) (r : PadRef) : Prop where
  dirs : (w.padsAt r).pinDirs = (w.padsAt r).resolvedDirs w.sm
  mux : (w.padsAt r).MuxCached

/-- Every pad set a block points at has its caches up to date. -/
def Coherent (w : World) : Prop := ∀ b, w.CoherentAt (w.padRef b)

/-- An embedded pad set is used by its own block only. -/
def Embedded (w : World) : Prop := ∀ b c, w.padRef b = .embedded c → b = c

/-- Every pad set in use that lists `b` as an owner is the one `b` points at. -/
def Sole (w : World) (b : BlockAddr) : Prop := ∀ c, b ∈ (w.pads c).owners → w.padRef c = w.padRef b

/-- `w'` has the same claims and caches as `w`, but perhaps for the claims of block `b`. -/
structure SameDirs (b : Option BlockAddr) (w w' : World) : Prop where
  padRef : w'.padRef = w.padRef
  pads : ∀ r, (w'.padsAt r).dirView = (w.padsAt r).dirView
  sm : ∀ c i, some c ≠ b → (w'.sm c i).dirView = (w.sm c i).dirView

variable {w w' w'' : World} {b : BlockAddr} {i : Fin 4}

omit [Platform] in
theorem SameDirs.refl (w : World) (b : Option BlockAddr) : SameDirs b w w :=
  ⟨rfl, fun _ => rfl, fun _ _ _ => rfl⟩

omit [Platform] in
theorem SameDirs.trans {b : Option BlockAddr} (h : SameDirs b w w') (h' : SameDirs b w' w'') :
    SameDirs b w w'' :=
  ⟨h'.padRef.trans h.padRef, fun r => (h'.pads r).trans (h.pads r),
    fun c i hc => (h'.sm c i hc).trans (h.sm c i hc)⟩

theorem SameDirs.coherentAt {o : Option BlockAddr} (h : SameDirs o w w') {r : PadRef}
    (hr : ∀ c ∈ (w.padsAt r).owners, some c ≠ o) (hw : w.CoherentAt r) : w'.CoherentAt r where
  dirs := by
    have hdirs : (w'.padsAt r).pinDirs = (w.padsAt r).pinDirs := congrArg Prod.fst (h.pads r)
    rw [hdirs, Pads.resolvedDirs_congr (h.pads r) fun c hc i => h.sm c i (hr c hc)]
    exact hw.dirs
  mux := hw.mux.congr (h.pads r)

omit [Platform] in
theorem SameDirs.owners {o : Option BlockAddr} (h : SameDirs o w w') (c : BlockAddr) :
    (w'.pads c).owners = (w.pads c).owners := by
  rw [World.pads, World.pads, h.padRef]
  exact congrArg (·.2.2.2.2) (h.pads (w.padRef c))

omit [Platform] in
theorem SameDirs.sole {o : Option BlockAddr} (h : SameDirs o w w') (hw : w.Sole b) : w'.Sole b := by
  intro c hc
  rw [h.padRef]
  exact hw c (h.owners c ▸ hc)

/-- The invariant of a run. -/
structure PadsOk (w : World) : Prop where
  coherent : w.Coherent
  embedded : w.Embedded

/-- A step that changes no claim and no cache. -/
theorem SameDirs.padsOk (h : SameDirs none w w') (hw : w.PadsOk) : w'.PadsOk where
  coherent c := by
    rw [h.padRef]
    exact h.coherentAt (fun _ _ => Option.some_ne_none _) (hw.coherent c)
  embedded := by
    rw [Embedded, h.padRef]
    exact hw.embedded

theorem padsAt_resolvePads (w : World) (b : BlockAddr) (r : PadRef) :
    (w.resolvePads b).padsAt r =
      if r = w.padRef b then (w.padsAt r).resolve w.sm else w.padsAt r := by
  split
  · rename_i hr
    subst hr
    rw [resolvePads, modifyPads, padsAt_setPads_self]
    rfl
  · rename_i hr
    rw [resolvePads, modifyPads, padsAt_setPads_of_ne hr]

theorem owners_resolvePads (w : World) (b c : BlockAddr) :
    ((w.resolvePads b).pads c).owners = (w.pads c).owners := by
  rw [World.pads, padRef_resolvePads, padsAt_resolvePads]
  split <;> rfl

/-- A step that changes the claims of one block, and then resolves its pad set. -/
theorem padsOk_resolve (h : SameDirs (some b) w w') (hw : w.PadsOk) (hs : w.Sole b) :
    (w'.resolvePads b).PadsOk where
  coherent c := by
    rw [padRef_resolvePads]
    by_cases hr : w'.padRef c = w'.padRef b
    · -- the set that was resolved
      have hset := padsAt_resolvePads w' b (w'.padRef c)
      rw [if_pos hr] at hset
      have hmux : (w'.padsAt (w'.padRef c)).MuxCached := by
        rw [h.padRef]
        exact (hw.coherent c).mux.congr (h.pads _)
      exact ⟨by rw [hset, sm_resolvePads]; rfl, by rw [hset]; exact hmux⟩
    · -- any other set in use, which `b` does not own
      have hset := padsAt_resolvePads w' b (w'.padRef c)
      rw [if_neg hr] at hset
      have hat : w'.CoherentAt (w'.padRef c) := by
        rw [h.padRef] at hr ⊢
        refine h.coherentAt (fun o ho he => ?_) (hw.coherent c)
        rw [Option.some.inj he] at ho
        exact hr (hs c ho)
      exact ⟨by rw [hset, sm_resolvePads]; exact hat.dirs, by rw [hset]; exact hat.mux⟩
  embedded := by
    rw [Embedded, padRef_resolvePads, h.padRef]
    exact hw.embedded

theorem sole_resolve (h : SameDirs (some b) w w') (hs : w.Sole b) : (w'.resolvePads b).Sole b := by
  intro c hc
  rw [owners_resolvePads] at hc
  rw [padRef_resolvePads]
  exact h.sole hs c hc

/-! ### Ticks and forced instructions -/

section
omit [Platform]

theorem sameDirs_setSm {s : Sm} (hs : s.dirView = (w.sm b i).dirView) :
    SameDirs none w (w.setSm b i s) := by
  refine ⟨padRef_setSm b i s, fun r => by rw [padsAt_setSm], fun c j _ => ?_⟩
  rw [sm_setSm]
  split
  · rename_i h
    obtain ⟨rfl, rfl⟩ := Prod.mk.inj h
    exact hs
  · rfl

theorem sameDirs_modifySm {f : Sm → Sm} (hf : ∀ s, (f s).dirView = s.dirView) :
    SameDirs none w (w.modifySm b i f) := sameDirs_setSm (hf _)

theorem sameDirs_modifySm_self (w : World) (b : BlockAddr) (i : Fin 4) (f : Sm → Sm) :
    SameDirs (some b) w (w.modifySm b i f) := by
  refine ⟨padRef_modifySm b i f, fun r => by rw [padsAt_modifySm], fun c j hc => ?_⟩
  rw [sm_modifySm_of_ne fun h => hc (congrArg some (Prod.mk.inj h).1)]

theorem sameDirs_setBlock {p : Pio} (hp : p.pads = (w.blocks b).pads)
    (he : p.padsEmbedded.dirView = (w.blocks b).padsEmbedded.dirView)
    (hs : p.sm = (w.blocks b).sm) : SameDirs none w (w.setBlock b p) := by
  refine ⟨padRef_setBlock hp, fun r => ?_, fun c i _ => by rw [sm_setBlock hs]⟩
  cases r with
  | embedded c =>
    by_cases hc : c = b
    · subst hc
      simpa [padsAt, setBlock] using he
    · simp [padsAt, setBlock, Function.update_of_ne hc]
  | shared g => rfl

theorem sameDirs_setPads {r : PadRef} {p : Pads} (hp : p.dirView = (w.padsAt r).dirView) :
    SameDirs none w (w.setPads r p) := by
  refine ⟨padRef_setPads r p, fun r' => ?_, fun c i _ => by rw [sm_setPads]⟩
  by_cases hr : r' = r
  · subst hr
    rw [padsAt_setPads_self]
    exact hp
  · rw [padsAt_setPads_of_ne hr]

end

def PadsOkFor (b : BlockAddr) (w : World) : Prop := w.PadsOk ∧ w.Sole b

theorem SameDirs.padsOkFor (h : SameDirs none w w') (hw : w.PadsOkFor b) : w'.PadsOkFor b :=
  ⟨h.padsOk hw.1, h.sole hw.2⟩

theorem padsOkFor_resolve (h : SameDirs (some b) w w') (hw : w.PadsOkFor b) :
    (w'.resolvePads b).PadsOkFor b := ⟨padsOk_resolve h hw.1 hw.2, sole_resolve h hw.2⟩

theorem padsOkFor_closed (b : BlockAddr) (i : Fin 4) : Closed (PadsOkFor b) b i where
  record v s hpins hen hv := by
    refine SameDirs.padsOkFor (sameDirs_setSm ?_) hv
    rw [Sm.dirView, hpins, hen]
    rfl
  irq v blk x hv := SameDirs.padsOkFor (sameDirs_setBlock (by rfl) (by rfl) (by rfl)) hv
  fetch v hv := by
    unfold countFetch
    split
    · exact hv
    · exact SameDirs.padsOkFor (sameDirs_setBlock (by rfl) (by rfl) (by rfl)) hv
  pins v r hv := padsOkFor_resolve (sameDirs_modifySm_self v b i _) hv

omit [Platform] in
theorem stickyReassert_dirView (s : Sm) : (stickyReassert s).dirView = s.dirView := by
  unfold stickyReassert
  split <;> rfl

theorem padsOkFor_tickSms (hw : w.PadsOkFor b) : (w.tickSms b).PadsOkFor b := by
  refine tickSms_induction (fun v i hv => ?_) (fun v i hv => ?_) (fun v hv => ?_) hw
  · exact (sameDirs_modifySm (f := Sm.openWindow) fun _ => rfl).padsOkFor hv
  · exact smTick_closed (padsOkFor_closed b i)
      (fun u hu => (sameDirs_modifySm stickyReassert_dirView).padsOkFor hu) hv
  · exact padsOkFor_resolve (.refl v _) hv

/-! ### Initialisations -/

theorem sameDirs_groupInit (w : World) (g : GroupAddr) (blocks : List BlockAddr) :
    SameDirs none w (w.groupInit g blocks) := by
  have hgroup : SameDirs none w (w.setGroup g
      { w.groups g with blk := blocks.take numPio, shared := false }) := by
    refine ⟨rfl, fun r => ?_, fun _ _ _ => rfl⟩
    cases r with
    | embedded c => rfl
    | shared g' =>
      by_cases hg : g' = g
      · subst hg
        simp [padsAt, setGroup]
      · simp [padsAt, setGroup, Function.update_of_ne hg]
  unfold groupInit
  simp only
  split
  · refine List.foldlRecOn (motive := SameDirs none w) _ _ hgroup ?_
    intro v hv k _
    split
    · exact hv
    · exact hv.trans (sameDirs_setBlock (by rfl) (by rfl) (by rfl))
  · exact hgroup

omit [Platform] in
/-- The fold of `pio_sim_group_init_shared` over its blocks. -/
theorem foldl_setPadRef (g : GroupAddr) (bs : List BlockAddr) (w : World) :
    let w' := bs.foldl (fun w b => w.setBlock b { w.blocks b with pads := .shared g }) w
    (∀ c, w'.padRef c = if c ∈ bs then .shared g else w.padRef c) ∧
      w'.padsAt = w.padsAt ∧ w'.sm = w.sm := by
  induction bs generalizing w with
  | nil => simp
  | cons b bs ih =>
    obtain ⟨href, hpads, hsm⟩ := ih (w.setBlock b { w.blocks b with pads := .shared g })
    refine ⟨fun c => ?_, hpads.trans (padsAt_setBlock (by rfl)), hsm.trans (sm_setBlock (by rfl))⟩
    rw [List.foldl_cons, href c]
    by_cases hc : c ∈ bs
    · simp [hc]
    · by_cases hcb : c = b
      · subst hcb
        simp [padRef, setBlock]
      · simp [hc, hcb, padRef, setBlock]

/-- What `pio_sim_group_init_shared` sets up. -/
theorem groupInitShared_sets (w : World) (g : GroupAddr) (blocks : List BlockAddr) :
    let w' := w.groupInitShared g blocks
    (∀ c, w'.padRef c = if c ∈ blocks.take numPio then .shared g else w.padRef c) ∧
      w'.padsAt (.shared g) = Pads.initDefaults (blocks.take numPio) ∧
      (∀ r, r ≠ .shared g → (w'.padsAt r).dirView = (w.padsAt r).dirView) ∧ w'.sm = w.sm := by
  have hinit := sameDirs_groupInit w g blocks
  obtain ⟨href, hpads, hsm⟩ := foldl_setPadRef g (blocks.take numPio)
    ((w.groupInit g blocks).setGroup g { (w.groupInit g blocks).groups g with
      shared := true, pads := Pads.initDefaults (blocks.take numPio) })
  refine ⟨fun c => ?_, ?_, fun r hr => ?_, sm_groupInitShared w g blocks⟩
  · exact (href c).trans (by rw [← hinit.padRef]; rfl)
  · exact (congrFun hpads (.shared g)).trans (by simp [padsAt, setGroup])
  · refine (congrArg Pads.dirView (congrFun hpads r)).trans (Eq.trans ?_ (hinit.pads r))
    cases r with
    | embedded c => rfl
    | shared g' =>
      have hg : g' ≠ g := fun he => hr (by rw [he])
      simp [padsAt, setGroup, Function.update_of_ne hg]

/-- The calls that keep the caches right. Initialising a state machine demotes it to a disabled one,
initialising a block drops all its claims: the pins they held must not change direction with it. The
blocks that come to share pads must hold no pin as an output. A block whose claims may change must
not be listed by pads it no longer points at. -/
def Settles (w : World) : Call → Prop
  | .smInit b k _ _ => w.Sole b ∧ (w.pads b).HandsOver w.sm
      (w.modifySm b (smIdx k) fun s => { s with enabled := false }).sm
      fun c i => (c, i) = (b, smIdx k)
  | .init b => ∀ c, c ≠ b → (w.pads c).HandsOver w.sm (w.pioSimInit b).sm fun c' _ => c' = b
  | .groupInitShared _ blocks =>
    ∀ pin d, (Pads.initDefaults (blocks.take numPio)).dirOwner w.sm pin = some d →
      (w.sm d.1 d.2.2).pins.outPinOe.getLsbD pin = false
  | .setEnabled b _ _ => w.Sole b
  | .setSmMaskEnabled b _ _ => w.Sole b
  | .enableSmMaskInSync b _ => w.Sole b
  | .setConsecutivePindirs b _ _ _ _ => w.Sole b
  | .smExec b _ _ => w.Sole b
  | .tickSms b => w.Sole b
  | _ => True

/-- Caches for the arbitration over other records that give every pin the same direction. -/
theorem CoherentAt.of_dirOf {r r' : PadRef} {f : BlockAddr → Fin 4 → Sm}
    (hp : (w'.padsAt r').dirView = (w.padsAt r).dirView)
    (hsm : ∀ o ∈ (w.padsAt r).owners, ∀ j, (w'.sm o j).dirView = (f o j).dirView)
    (hdir : ∀ pin, (w.padsAt r).dirOf f pin = (w.padsAt r).dirOf w.sm pin)
    (h : w.CoherentAt r) : w'.CoherentAt r' where
  dirs := by
    have hdirs : (w'.padsAt r').pinDirs = (w.padsAt r).pinDirs := congrArg Prod.fst hp
    rw [hdirs, h.dirs, Pads.resolvedDirs_congr hp hsm]
    apply BitVec.eq_of_getLsbD_eq
    intro pin _
    rw [Pads.getLsbD_resolvedDirs, Pads.getLsbD_resolvedDirs, hdir]
  mux := h.mux.congr hp

omit [Platform] in
theorem drops_smInit (w : World) (b : BlockAddr) (i : Fin 4) :
    Pads.Drops w.sm (w.modifySm b i fun s => { s with enabled := false }).sm
      fun c j => (c, j) = (b, i) where
  keep c j hne := by rw [sm_modifySm_of_ne hne]
  disabled c j he := by
    obtain ⟨rfl, rfl⟩ := Prod.mk.inj he
    rw [sm_modifySm_self]
  claims c j he k hk := by
    obtain ⟨rfl, rfl⟩ := Prod.mk.inj he
    rwa [sm_modifySm_self] at hk

theorem padsOk_smInit {k pc : ℕ} {cfg : SmConfig} (hw : w.PadsOk)
    (hc : w.Settles (.smInit b k pc cfg)) : (w.smInit b (smIdx k) pc cfg).PadsOk := by
  obtain ⟨hsole, hover⟩ := hc
  have hsame := sameDirs_modifySm_self w b (smIdx k) (·.init pc cfg)
  refine ⟨fun c => ?_, ?_⟩
  · rw [smInit, hsame.padRef]
    by_cases hr : w.padRef c = w.padRef b
    · rw [hr]
      refine CoherentAt.of_dirOf (hsame.pads _) (fun o _ j => ?_)
        (fun pin => (drops_smInit w b (smIdx k)).dirOf hover pin) (hw.coherent b)
      -- `init` and the demotion agree on what the arbitration reads
      rw [modifySm, modifySm, sm_setSm, sm_setSm]
      split
      · simp only [Sm.dirView, Sm.init, Sm.setConfig, Sm.applyFifoJoin]
        split <;> rfl
      · rfl
    · exact hsame.coherentAt (fun o ho he => hr (hsole c (Option.some.inj he ▸ ho)))
        (hw.coherent c)
  · rw [Embedded, smInit, hsame.padRef]
    exact hw.embedded

omit [Platform] in
/-- Without claims every direction is an input. -/
theorem resolvedDirs_eq_zero {p : Pads} {sm : BlockAddr → Fin 4 → Sm}
    (h : ∀ pin, p.dirOf sm pin = false) : p.resolvedDirs sm = 0 := by
  apply BitVec.eq_of_getLsbD_eq
  intro pin _
  rw [Pads.getLsbD_resolvedDirs, h]
  simp

theorem coherentAt_initDefaults {r : PadRef} {owners : List BlockAddr}
    (hr : w.padsAt r = Pads.initDefaults owners)
    (h : ∀ pin, (Pads.initDefaults owners).dirOf w.sm pin = false) : w.CoherentAt r where
  dirs := by
    rw [hr, resolvedDirs_eq_zero h]
    rfl
  mux := by
    rw [hr]
    exact Pads.muxCached_initDefaults owners

omit [Platform] in
theorem dirOf_initial {owners : List BlockAddr} {sm : BlockAddr → Fin 4 → Sm}
    (h : ∀ o ∈ owners, ∀ j, sm o j = Sm.initial) (pin : ℕ) :
    (Pads.initDefaults owners).dirOf sm pin = false := by
  have hnone : ∀ d ∈ (Pads.initDefaults owners).drivers,
      (Pads.initDefaults owners).claimsPin sm pin d = false := by
    intro d hd
    rw [Pads.claimsPin, Pads.drivenBy, h d.1 (Pads.mem_drivers hd) d.2.2]
    simp [Sm.initial, Sm.resetExec, PinRegs.none]
  have howner : (Pads.initDefaults owners).dirOwner sm pin = none := by
    rw [Pads.dirOwner, LastWriter.last_eq_none_iff.mpr
      fun d hd => by rw [hnone d hd, Bool.and_false],
      LastWriter.last_eq_none_iff.mpr fun d hd => by rw [hnone d hd, Bool.and_false]]
    rfl
  rw [Pads.dirOf, howner]
  rfl

theorem padsOk_groupInitShared {g : GroupAddr} {blocks : List BlockAddr} (hw : w.PadsOk)
    (hc : w.Settles (.groupInitShared g blocks)) : (w.groupInitShared g blocks).PadsOk := by
  obtain ⟨href, hnew, hold, hsm⟩ := groupInitShared_sets w g blocks
  have hshared : (w.groupInitShared g blocks).CoherentAt (.shared g) := by
    refine coherentAt_initDefaults hnew fun pin => ?_
    rw [hsm, Pads.dirOf]
    cases hd : (Pads.initDefaults (blocks.take numPio)).dirOwner w.sm pin with
    | none => rfl
    | some d => exact hc pin d hd
  have hother : ∀ c, (w.groupInitShared g blocks).padRef c ≠ .shared g →
      (w.groupInitShared g blocks).padRef c = w.padRef c := by
    intro c hne
    rw [href c] at hne ⊢
    split at hne
    · exact absurd rfl hne
    · rename_i hmem
      rw [if_neg hmem]
  refine ⟨fun c => ?_, fun c d hd => ?_⟩
  · by_cases hr : (w.groupInitShared g blocks).padRef c = .shared g
    · rw [hr]
      exact hshared
    · have hkeep : (w.groupInitShared g blocks).CoherentAt (w.padRef c) :=
        CoherentAt.of_dirOf (f := w.sm) (hold _ (hother c hr ▸ hr)) (fun o _ j => by rw [hsm])
          (fun _ => rfl) (hw.coherent c)
      rw [hother c hr]
      exact hkeep
  · have hne : (w.groupInitShared g blocks).padRef c ≠ .shared g := by rw [hd]; rintro ⟨⟩
    rw [hother c hne] at hd
    exact hw.embedded c d hd

omit [Platform] in
theorem drops_pioSimInit (w : World) (b : BlockAddr) :
    Pads.Drops w.sm (w.pioSimInit b).sm fun c _ => c = b where
  keep c j hne := by rw [sm_pioSimInit, if_neg hne]
  disabled c j he := by
    rw [sm_pioSimInit, if_pos he]
    rfl
  claims c j he k hk := by
    rw [sm_pioSimInit, if_pos he] at hk
    simp [Sm.initial, Sm.resetExec, PinRegs.none] at hk

theorem padsOk_pioSimInit (hw : w.PadsOk) (hc : w.Settles (.init b)) : (w.pioSimInit b).PadsOk := by
  have href : ∀ c, (w.pioSimInit b).padRef c = if c = b then .embedded b else w.padRef c := by
    intro c
    by_cases h : c = b
    · subst h
      simp [padRef, pioSimInit, setBlock, Pio.initial]
    · simp [padRef, pioSimInit, setBlock, h]
  have hnew : (w.pioSimInit b).padsAt (.embedded b) = Pads.initDefaults [b] := by
    simp [padsAt, pioSimInit, setBlock, Pio.initial]
  have hold : ∀ r, r ≠ .embedded b → (w.pioSimInit b).padsAt r = w.padsAt r := by
    intro r hr
    cases r with
    | embedded c =>
      have hcb : c ≠ b := fun he => hr (by rw [he])
      simp [padsAt, pioSimInit, setBlock, Function.update_of_ne hcb]
    | shared g => rfl
  have hleave : ∀ c, c ≠ b → w.padRef c ≠ .embedded b := fun c hcb he =>
    hcb (hw.embedded c b he)
  refine ⟨fun c => ?_, fun c d hd => ?_⟩
  · rw [href c]
    split
    · refine coherentAt_initDefaults hnew (dirOf_initial fun o ho j => ?_)
      rw [sm_pioSimInit, if_pos (List.mem_singleton.mp ho)]
    · rename_i hcb
      exact CoherentAt.of_dirOf (f := (w.pioSimInit b).sm) (by rw [hold _ (hleave c hcb)])
        (fun _ _ _ => rfl) (fun pin => (drops_pioSimInit w b).dirOf (hc c hcb) pin) (hw.coherent c)
  · rw [href c] at hd
    split at hd
    · rename_i hcb
      exact hcb.trans (PadRef.embedded.inj hd)
    · exact hw.embedded c d hd

theorem padsOk_initial : initial.PadsOk := by
  refine ⟨fun b => ?_, fun b c h => PadRef.embedded.inj h⟩
  exact coherentAt_initDefaults rfl (dirOf_initial fun _ _ _ => rfl)

/-! ### The other calls -/

theorem sameDirs_blockOp (w : World) (b : BlockAddr) (op : BlockOp) :
    SameDirs none w (w.setBlock b (op.apply (w.blocks b))) := by
  cases op with
  | load offset insns =>
    have hload : ∀ p : Pio, (p.load offset insns).pads = p.pads ∧
        (p.load offset insns).padsEmbedded = p.padsEmbedded := by
      intro p
      refine List.foldlRecOn (motive := fun q : Pio => q.pads = p.pads ∧
        q.padsEmbedded = p.padsEmbedded) _ _ ⟨rfl, rfl⟩ fun q hq x _ => ?_
      simp only
      split <;> exact hq
    exact sameDirs_setBlock (hload _).1 (congrArg Pads.dirView (hload _).2)
      (BlockOp.sm_apply _ (.load offset insns))
  | _ => exact sameDirs_setBlock (by rfl) (by rfl) (by rfl)

theorem PadOp.dirView_apply (p : Pads) (op : PadOp) : (op.apply p).dirView = p.dirView := by
  cases op with
  | setPullLevel mask level =>
    simp only [PadOp.apply, Pads.setPullLevel]
    split <;> rfl
  | padSetIso pin iso =>
    simp only [PadOp.apply, Pads.padSetIso]
    split <;> rfl
  | _ => rfl

theorem SmOp.dirView_apply (s : Sm) (op : SmOp) : (op.apply s).dirView = s.dirView := by
  cases op with
  | setConfig c =>
    simp only [SmOp.apply, Sm.setConfig, Sm.applyFifoJoin]
    split <;> rfl
  | put word =>
    obtain ⟨f, t, h⟩ := s.put_eq word
    rw [SmOp.apply, h]
    rfl
  | get =>
    obtain ⟨f, r, h⟩ := s.get_eq
    rw [SmOp.apply, h]
    rfl
  | _ => rfl

omit [Platform] in
theorem sameDirs_foldl {α : Type} {o : Option BlockAddr} {f : World → α → World}
    (hf : ∀ v a, SameDirs o v (f v a)) (l : List α) (w : World) : SameDirs o w (l.foldl f w) :=
  List.foldlRecOn (motive := SameDirs o w) _ _ (.refl w o) fun v hv a _ => hv.trans (hf v a)

theorem padsOk_setSmMaskEnabled (hw : w.PadsOk) (hs : w.Sole b) (mask : BitVec 8) (enabled : Bool) :
    (w.setSmMaskEnabled b mask enabled).PadsOk := by
  refine padsOk_resolve (sameDirs_foldl (fun v i => ?_) _ w) hw hs
  split
  · exact sameDirs_modifySm_self v b i _
  · exact .refl v _

omit [Platform] in
theorem sameDirs_clkdivRestartSmMask (w : World) (b : BlockAddr) (mask : BitVec 8) :
    SameDirs none w (w.clkdivRestartSmMask b mask) := by
  refine sameDirs_foldl (fun v i => ?_) _ w
  split
  · exact sameDirs_modifySm fun _ => rfl
  · exact .refl v _

omit [Platform] in
theorem sameDirs_openWindow (w : World) (b : BlockAddr) : SameDirs none w (w.openWindow b) :=
  sameDirs_foldl (fun _ _ => sameDirs_modifySm (f := Sm.openWindow) fun _ => rfl) _ w

theorem sameDirs_tickEnd (w : World) (b : BlockAddr) : SameDirs none w (w.tickEnd b) := by
  have hsync : SameDirs none w (if w.padRef b = .embedded b then w.modifyPads b Pads.clockSync
      else w) := by
    split
    · exact sameDirs_setPads rfl
    · exact .refl w _
  exact hsync.trans (sameDirs_setBlock (by rfl) (by rfl) (by rfl))

theorem padsOk_gpioSetFunction (hw : w.PadsOk) (b : BlockAddr) (pin f : ℕ) :
    (w.gpioSetFunction b pin f).PadsOk := by
  have hset := padsAt_setPads_self (w := w) (w.padRef b) ((w.pads b).gpioSetFunction w.sm pin f)
  have href : (w.gpioSetFunction b pin f).padRef = w.padRef := padRef_modifyPads b _
  have hsm : (w.gpioSetFunction b pin f).sm = w.sm := sm_modifyPads b _
  refine ⟨fun c => ?_, by rw [Embedded, href]; exact hw.embedded⟩
  rw [href]
  by_cases hr : w.padRef c = w.padRef b
  · rw [hr]
    refine ⟨?_, ?_⟩
    · rw [hsm, gpioSetFunction, modifyPads, hset]
      rfl
    · rw [gpioSetFunction, modifyPads, hset]
      exact (Pads.muxCached_refreshFuncMasks _).congr rfl
  · have hother : (w.gpioSetFunction b pin f).padsAt (w.padRef c) = w.padsAt (w.padRef c) :=
      padsAt_setPads_of_ne hr _
    exact ⟨by rw [hsm, hother]; exact (hw.coherent c).dirs,
      by rw [hother]; exact (hw.coherent c).mux⟩

/-- Every call that `Settles` admits keeps the caches right. -/
theorem padsOk_step {c : Call} (hw : w.PadsOk) (hc : w.Settles c) : (w.step c).PadsOk := by
  cases c with
  | sm b k op => exact (sameDirs_modifySm fun s => SmOp.dirView_apply s op).padsOk hw
  | block b op => exact (sameDirs_blockOp w b op).padsOk hw
  | pad b op => exact (sameDirs_setPads (PadOp.dirView_apply _ op)).padsOk hw
  | init b => exact padsOk_pioSimInit hw hc
  | setEnabled b k enabled => exact padsOk_resolve (sameDirs_modifySm_self w b (smIdx k) _) hw hc
  | setSmMaskEnabled b mask enabled => exact padsOk_setSmMaskEnabled hw hc mask enabled
  | clkdivRestartSmMask b mask => exact (sameDirs_clkdivRestartSmMask w b mask).padsOk hw
  | enableSmMaskInSync b mask =>
    exact (sameDirs_clkdivRestartSmMask _ b mask).padsOk (padsOk_setSmMaskEnabled hw hc mask true)
  | setConsecutivePindirs b k base count isOut =>
    exact padsOk_resolve (sameDirs_modifySm_self w b (smIdx k) _) hw hc
  | smInit b k pc cfg => exact padsOk_smInit hw hc
  | smExec b k insn => exact (smExec_closed (padsOkFor_closed b (smIdx k)) insn ⟨hw, hc⟩).1
  | gpioSetFunction b pin f => exact padsOk_gpioSetFunction hw b pin f
  | groupInit g blocks => exact (sameDirs_groupInit w g blocks).padsOk hw
  | groupInitShared g blocks => exact padsOk_groupInitShared hw hc
  | loadProgram b k offset prog =>
    rcases w.loadProgram_cases b (smIdx k) offset prog with h | ⟨words, -, h⟩
    · rw [step, h]
      exact hw
    · rw [step, h]
      exact ((sameDirs_blockOp w b (.load offset words)).trans
        (sameDirs_modifySm (f := (·.startProgram offset prog)) fun _ => rfl)).padsOk hw
  | tickSms b => exact (padsOkFor_tickSms ⟨hw, hc⟩).1
  | tickEnd b => exact (sameDirs_tickEnd w b).padsOk hw
  | groupOpen g => exact (sameDirs_foldl (fun v b => sameDirs_openWindow v b) _ w).padsOk hw
  | groupEnd g =>
    rw [step, groupEnd]
    split
    · exact (sameDirs_setPads (p := (w.padsAt (.shared g)).clockSync) rfl).padsOk hw
    · exact hw

omit [Platform] in
theorem sole_initial (b : BlockAddr) : initial.Sole b :=
  fun _ hc => congrArg PadRef.embedded (List.mem_singleton.mp hc).symm

/-- In a run whose calls all settle, every pad set in use has its caches up to date after every
call. -/
theorem pads_coherent_along_settling {cs ds : List Call} (hc : Run.Along step Settles initial cs)
    (hp : ds <+: cs) : (initial.run ds).Coherent :=
  (Run.invariant_prefix (I := PadsOk) (fun _ _ hw hc => padsOk_step hw hc) padsOk_initial hc
    hp).coherent

omit [Platform] in
/-- A disabled state machine may be initialised while it holds a pin. -/
theorem pads_coherent_init_disabled :
    letI : Platform := ⟨.rp2350⟩
    (initial.run [.setConsecutivePindirs 0 0 0 1 true,
        .smInit 0 0 0 defaultSmConfig]).Coherent := by
  let P : Platform := ⟨.rp2350⟩
  have hsettles : Run.Along step Settles initial
      [.setConsecutivePindirs 0 0 0 1 true, .smInit 0 0 0 defaultSmConfig] := by
    refine ⟨sole_initial 0, ⟨?_, ?_⟩, trivial⟩
    · exact sole_resolve (sameDirs_modifySm_self initial 0 0 _) (sole_initial 0)
    · have hsame : ((initial.step (.setConsecutivePindirs 0 0 0 1 true)).modifySm 0 (smIdx 0)
          fun s => { s with enabled := false }).sm =
            (initial.step (.setConsecutivePindirs 0 0 0 1 true)).sm :=
        congrArg World.sm (setSm_sm _ 0 (smIdx 0))
      rw [hsame]
      exact .refl _ _ _
  exact pads_coherent_along_settling hsettles List.prefix_rfl

omit [Platform] in
/-- An enabled state machine that holds a pin loses it to a disabled one when it is initialised, and
`pio_sim_sm_init` leaves the cached direction behind. -/
theorem sm_init_leaves_stale_direction :
    letI : Platform := ⟨.rp2350⟩
    ¬ (initial.run [.setConsecutivePindirs 0 0 0 1 true, .setConsecutivePindirs 0 1 0 1 false,
      .setEnabled 0 0 true, .smInit 0 0 0 defaultSmConfig]).Coherent := by
  let P : Platform := ⟨.rp2350⟩
  intro h
  have hpin := congrArg (·.getLsbD 0) (h 0).dirs
  revert hpin
  decide +kernel

end World
end PioSim
