import LevelIr.Proofs.Requests
import LevelIr.Proofs.Slot.Step

/-!
# The table of slots over many calls

A table of slots is filled by versioning, one entry after another, and listings in between give
names to registers.  Whatever calls are made, and whether they end well or fail half-way, the table
stays right: each name has a slot of its own, which is a stack slot of the program with that name,
and the name ends in the version of the slot.  What the table holds once it holds for good.

* `Slots.Backed` : what is known of a table and the program that its slots are in.
* `Versioning.Extends` : a later program and table, with all entries of an earlier one.
* `Session.backed_calls` : the table is right after any sequence of calls, and entries stay.
-/

namespace LevelIr

/-! ### Tables and their programs -/

namespace Program

/-- The program `q` has the instructions of `p`, with the same results, and the results that have a
name in `p` are the same in `q`. -/
structure Retains (p q : Program) : Prop where
  value : ∀ v value i, p.value? v = some value → value.origin = .result i →
    value.isNamed = true → q.value? v = some value
  inst : ∀ i inst, p.inst? i = some inst →
    ∃ later, q.inst? i = some later ∧ later.opcode = inst.opcode ∧ later.result = inst.result

instance : IsPreorder Program Retains where
  refl _ := ⟨fun _ _ _ h _ _ => h, fun _ inst h => ⟨inst, h, rfl, rfl⟩⟩
  trans _ _ _ hpq hqr :=
    { value := fun v value i h horigin hnamed =>
        hqr.value v value i (hpq.value v value i h horigin hnamed) horigin hnamed
      inst := fun i inst h => by
        obtain ⟨later, hlater, hopcode, hresult⟩ := hpq.inst i inst h
        obtain ⟨last, hlast, hopcode', hresult'⟩ := hqr.inst i later hlater
        exact ⟨last, hlast, hopcode'.trans hopcode, hresult'.trans hresult⟩ }

variable {p q : Program}

theorem retains_placed (b : BlockId) (change : List InstId → List InstId) (draft : Draft) :
    p.Retains (p.placed b change draft) where
  value _ _ _ h _ _ := value?_placed_of_some h
  inst _ inst h := ⟨inst, inst?_placed_of_some h, rfl, rfl⟩

theorem retains_placeBefore (p : Program) (anchor : InstId) (draft : Draft) :
    p.Retains ((placeBefore anchor draft).outcome p).2 := by
  rcases placeBefore_state p anchor draft with h | ⟨inst, -, h⟩
  · rw [h]
    exact refl_of Retains p
  · rw [h]
    exact retains_placed _ _ _

theorem retains_replaceOperand (p : Program) (i : InstId) (position : Nat) (operand : Arg) :
    p.Retains ((replaceOperand i position operand).outcome p).2 := by
  rcases replaceOperand_outcome p i position operand with h | h
  · rw [h]
    exact refl_of Retains p
  · rw [h]
    refine ⟨fun _ _ _ hv _ _ => hv, fun j inst hj => ?_⟩
    rw [inst?] at hj
    simp only [inst?, Array.getElem?_modify, hj]
    split
    · exact ⟨_, rfl, rfl, rfl⟩
    · exact ⟨inst, rfl, rfl, rfl⟩

/-- What a program has stays as it is if other instructions are placed and operands are replaced. -/
theorem keptByEdits_retains (p : Program) : Versioning.KeptByEdits p.Retains where
  placed anchor draft q _ hq := trans_of Retains hq (q.retains_placeBefore anchor draft)
  replaced i operand q _ hq := trans_of Retains hq (q.retains_replaceOperand i 0 operand)

end Program

namespace Slots

/-- What is known of a table and the program that its slots are in. -/
structure Backed (slots : Slots) (p : Program) : Prop where
  /-- Two names have two slots. -/
  inj : ∀ name other v, slots.slot? name = some v → slots.slot? other = some v → name = other
  /-- The slots are those that have a name. -/
  isSlot_iff : ∀ v, slots.isSlot v = true ↔ ∃ name, slots.slot? name = some v
  /-- A slot is reserved by an instruction of the program, and has the name that it is known by. -/
  reserved : ∀ name v, slots.slot? name = some v → ∃ value i inst,
    p.value? v = some value ∧ value.name = name ∧ value.origin = .result i ∧
      p.inst? i = some inst ∧ inst.opcode = .alloca ∧ inst.result = some v
  /-- The name of a slot ends in its version. -/
  version : ∀ name v, slots.slot? name = some v →
    ∃ stem version, slots.version? v = some version ∧ name = stem ++ "_" ++ toString version

/-- All entries of a table are in another one. -/
structure Includes (slots later : Slots) : Prop where
  slot : ∀ name v, slots.slot? name = some v → later.slot? name = some v
  version : ∀ v version, slots.version? v = some version → later.version? v = some version

variable {slots : Slots} {p q : Program}

theorem includes_refl (slots : Slots) : slots.Includes slots := ⟨fun _ _ h => h, fun _ _ h => h⟩

theorem backed_empty (p : Program) : Backed {} p where
  inj _ _ _ h := by cases h
  isSlot_iff v := by
    constructor
    · intro h
      cases h
    · rintro ⟨name, h⟩
      cases h
  reserved _ _ h := by cases h
  version _ _ h := by cases h

theorem Backed.of_retains (h : slots.Backed p) (hpq : p.Retains q) : slots.Backed q where
  inj := h.inj
  isSlot_iff := h.isSlot_iff
  reserved name v hv := by
    obtain ⟨value, i, inst, hvalue, hname, horigin, hinst, hopcode, hresult⟩ := h.reserved name v hv
    obtain ⟨stem, version, -, hversion⟩ := h.version name v hv
    -- a name that ends in a version is not empty, and only empty names are replaced
    have hnamed : value.isNamed = true := by simp [Value.isNamed, hname, hversion]
    obtain ⟨later, hlater, hopcode', hresult'⟩ := hpq.inst i inst hinst
    exact ⟨value, i, later, hpq.value v value i hvalue horigin hnamed, hname, horigin, hlater,
      hopcode'.trans hopcode, hresult'.trans hresult⟩
  version := h.version

/-- A value that the program does not have is no slot. -/
theorem Backed.not_slot (h : slots.Backed p) {v : ValueId} (hv : p.value? v = none)
    (name : String) : slots.slot? name ≠ some v := by
  intro hslot
  obtain ⟨value, -, -, hvalue, -⟩ := h.reserved name v hslot
  rw [hv] at hvalue
  cases hvalue

/-- A new entry, for a slot that was made. -/
theorem Backed.remember (h : slots.Backed p) {m : Versioning.Filling} (hm : m.Next p)
    (hnew : slots.slot? m.request.name = none)
    (hname : ∃ stem, m.request.name = stem ++ "_" ++ toString m.request.version) :
    (slots.remember m.request.name m.slot m.request.version).Backed (p.filled m) ∧
      slots.Includes (slots.remember m.request.name m.slot m.request.version) := by
  -- the slot is a new value of the program, so no name has it yet
  have hfresh : p.value? m.slot = none := by
    have hslot : m.slot.index = m.content.index + 1 := rfl
    have hcontent := hm.content
    rw [Program.value?, Array.getElem?_eq_none_iff]
    omega
  have hnot := h.not_slot hfresh
  have hretains : p.Retains (p.filled m) :=
    trans_of Program.Retains (trans_of Program.Retains (Program.retains_placed _ _ _)
      (Program.retains_placed _ _ _)) (Program.retains_placed _ _ _)
  have hq := h.of_retains hretains
  have hne {v : ValueId} {name : String} (hv : slots.slot? name = some v) : v ≠ m.slot := by
    rintro rfl
    exact hnot name hv
  have hcases {name : String} {v : ValueId}
      (hv : (slots.remember m.request.name m.slot m.request.version).slot? name = some v) :
      name = m.request.name ∧ v = m.slot ∨ slots.slot? name = some v := by
    rw [slot?_remember] at hv
    split at hv
    · rename_i e
      exact .inl ⟨e, (Option.some.inj hv).symm⟩
    · exact .inr hv
  refine ⟨⟨?_, fun v => ?_, ?_, ?_⟩, ?_, ?_⟩
  · intro name other v hv hother
    rcases hcases hv with ⟨rfl, rfl⟩ | hold <;> rcases hcases hother with ⟨rfl, hslot⟩ | hold'
    · rfl
    · exact absurd hold' (hnot other)
    · exact absurd (hslot ▸ hold) (hnot name)
    · exact h.inj name other v hold hold'
  · rw [isSlot_remember, h.isSlot_iff]
    constructor
    · rintro (rfl | ⟨name, hv⟩)
      · exact ⟨m.request.name, by rw [slot?_remember, if_pos rfl]⟩
      · refine ⟨name, ?_⟩
        rw [slot?_remember, if_neg (fun e => ?_), hv]
        rw [e, hnew] at hv
        cases hv
    · rintro ⟨name, hv⟩
      exact (hcases hv).imp (fun e => e.2) fun hold => ⟨name, hold⟩
  · intro name v hv
    rcases hcases hv with ⟨rfl, rfl⟩ | hold
    · have hreader := hm.reader
      have hreserver : m.reserver.index = m.reader.index + 1 := rfl
      have hslot : m.slot.index = m.content.index + 1 := rfl
      refine ⟨m.slotValue, m.reserver, m.reserverInst, ?_, rfl, rfl, ?_, rfl, rfl⟩
      · rw [Program.value?_filled hm, if_neg (by rw [ValueId.eq_iff]; omega), if_pos rfl]
      · rw [Program.inst?_filled hm, if_neg (by rw [InstId.eq_iff]; omega), if_pos rfl]
    · exact hq.reserved name v hold
  · intro name v hv
    rcases hcases hv with ⟨rfl, rfl⟩ | hold
    · obtain ⟨stem, hstem⟩ := hname
      exact ⟨stem, m.request.version, by rw [version?_remember, if_pos rfl], hstem⟩
    · obtain ⟨stem, version, hversion, hstem⟩ := h.version name v hold
      exact ⟨stem, version, by rw [version?_remember, if_neg (hne hold), hversion], hstem⟩
  · intro name v hv
    rw [slot?_remember, if_neg (fun e => ?_), hv]
    rw [e, hnew] at hv
    cases hv
  · intro v version hv
    obtain ⟨name, hslot⟩ := (h.isSlot_iff v).1 (by rw [isSlot_eq_isSome, hv]; rfl)
    rw [version?_remember, if_neg (hne hslot), hv]

end Slots

/-! ### Versioning -/

namespace Versioning

/-- A later program and table: if the table is right, so is the later one, and it has all entries of
the earlier one. -/
def Extends (state later : Program × Slots) : Prop :=
  state.2.Backed state.1 → later.2.Backed later.1 ∧ state.2.Includes later.2

instance : IsPreorder (Program × Slots) Extends where
  refl state h := ⟨h, Slots.includes_refl state.2⟩
  trans _ _ _ hab hbc h := by
    obtain ⟨hb, hincl⟩ := hab h
    obtain ⟨hc, hincl'⟩ := hbc hb
    exact ⟨hc, fun name v hv => hincl'.slot name v (hincl.slot name v hv),
      fun v n hv => hincl'.version v n (hincl.version v n hv)⟩

theorem extends_of_retains {p q : Program} (slots : Slots) (h : p.Retains q) :
    Extends (p, slots) (q, slots) :=
  fun hp => ⟨hp.of_retains h, Slots.includes_refl slots⟩

theorem extends_slotFor (i : InstId) (storage : ValueId) {name : String} {version : Nat}
    (hname : ∃ stem, name = stem ++ "_" ++ toString version) :
    Pass.Keeps Extends (slotFor i storage name version) := by
  rintro ⟨p, slots⟩
  cases hslot : slots.slot? name with
  | some slot =>
    rw [slotFor_ok_iff.2 (.inl ⟨hslot, rfl⟩)]
    exact refl_of Extends (p, slots)
  | none =>
    cases hfill : (fill i storage name).outcome p with
    | mk answer q =>
      cases answer with
      | error fault =>
        have hout : (slotFor i storage name version).outcome (p, slots) =
            (.error fault, (q, slots)) := by
          unfold slotFor
          rw [Pass.outcome_bind, Pass.outcome_get]
          simp only [hslot]
          rw [Pass.outcome_bind, onProgram, Pass.outcome_within, hfill]
        rw [hout]
        -- also a slot that cannot be filled leaves what was there behind
        have hretains :=
          (p.keptByEdits_retains.fill i storage name (refl_of Program.Retains p)).reached
        rw [hfill] at hretains
        exact extends_of_retains slots hretains
      | ok slot =>
        rw [slotFor_ok_iff.2 (.inr ⟨hslot, q, hfill, rfl⟩)]
        obtain ⟨m, -, hrequest, -, hm, rfl, rfl⟩ :=
          (fill_ok_iff ⟨"", i⟩ ⟨storage, version, name⟩).1 hfill
        intro hp
        have hremember := hp.remember hm
        rw [hrequest] at hremember
        exact hremember hslot hname

theorem extends_load (function : Function) (oracle : Oracle) (i : InstId) :
    Pass.Keeps Extends (load function oracle i) := by
  refine Pass.keeps_get.bind fun state => (Pass.keeps_lift _).bind fun inst =>
    (Pass.keeps_lift _).bind fun storage => ?_
  cases storage with
  | none => exact Pass.keeps_pure _
  | some storage =>
    dsimp only
    split
    · exact Pass.keeps_throw _
    · rename_i version hversion
      have hreplace (slot : ValueId) : Pass.Keeps Extends
          (onProgram (Program.replaceOperand i 0 (.value slot))) := fun state =>
        extends_of_retains state.2 (state.1.retains_replaceOperand i 0 (.value slot))
      exact (Pass.keeps_lift _).bind fun label =>
        (extends_slotFor i storage ⟨function.name ++ "_" ++ label, rfl⟩).bind fun slot =>
          (hreplace slot).bind fun _ => Pass.keeps_pure _

theorem extends_loads (function : Function) (oracle : Oracle) (insts : List InstId) :
    Pass.Keeps Extends (loads function oracle insts) :=
  Pass.keeps_foldlM
    (fun _ i => (extends_load function oracle i).bind fun _ => Pass.keeps_pure _) insts 0

end Versioning

/-! ### Calls -/

namespace Workspace

open Versioning (Extends)

/-- The program and the table of slots. -/
def table (w : Workspace) : Program × Slots := (w.program, w.context.slots)

/-- A later workspace, with all entries of the table. -/
def ExtendsTable (w later : Workspace) : Prop := Extends w.table later.table

instance : IsPreorder Workspace ExtendsTable where
  refl w := refl_of Extends w.table
  trans _ _ _ hab hbc := trans_of Extends hab hbc

theorem extends_report (event : Event) : Pass.Keeps ExtendsTable (report event) :=
  fun w => refl_of Extends w.table

theorem extends_versionFunction (oracle : Oracle) (f : FunctionId) :
    Pass.Keeps ExtendsTable (versionFunction oracle f) := by
  refine Pass.keeps_get.bind fun w => (Pass.keeps_lift _).bind fun function => ?_
  have hloads := Versioning.extends_loads function oracle (w.program.loadsOf function)
  refine Pass.Keeps.bind (hloads.within fun _ _ hextends => ?_) fun count =>
    (extends_report _).bind fun _ => Pass.keeps_pure _
  exact hextends

theorem extends_versionProgram (oracle : Oracle) :
    Pass.Keeps ExtendsTable (versionProgram oracle) :=
  Pass.keeps_get.bind fun _ => Pass.keeps_foldlM
    (fun _ f => (extends_versionFunction oracle f).bind fun _ => Pass.keeps_pure _) _ _

/-- Names are given to registers that have none, so those of slots stay. -/
theorem GivesNames.retains {given : List ValueId} {w later : Workspace}
    (h : GivesNames given w later) : w.program.Retains later.program where
  value _ _ _ hvalue horigin hnamed := h.result hvalue horigin hnamed
  inst i inst hinst := ⟨inst, (Program.inst?_of_nameless h.nameless i).trans hinst, rfl, rfl⟩

end Workspace

namespace Session

open Workspace (ExtendsTable)

/-- Requests give names and leave the table as it is. -/
theorem extends_ask (request : Request) :
    Pass.Keeps (InvImage ExtendsTable workspace) (ask request) := by
  intro session
  obtain ⟨given, hgiven⟩ := Workspace.keptBySteps_onlyNames.ask request session
  have hslots := (Workspace.keptBySteps_continues.ask request session).slots
  rw [InvImage, ExtendsTable, Workspace.table, Workspace.table, hslots]
  exact Versioning.extends_of_retains _ hgiven.retains

theorem extends_call (c : Call) : Pass.Keeps (InvImage ExtendsTable workspace) (call c) := by
  cases c with
  | request request => exact extends_ask request
  | versionFunction oracle f =>
    exact (Workspace.keeps_onWorkspace (Workspace.extends_versionFunction oracle f)).bind fun _ =>
      Pass.keeps_pure _
  | versionProgram oracle =>
    exact (Workspace.keeps_onWorkspace (Workspace.extends_versionProgram oracle)).bind fun _ =>
      Pass.keeps_pure _
  | exchange shared names =>
    exact Workspace.keeps_onWorkspace <|
      Pass.keeps_modify fun w => refl_of Versioning.Extends w.table

theorem extends_calls (session : Session) (list : List Call) :
    session.workspace.ExtendsTable (session.calls list).workspace :=
  kept_calls (R := InvImage ExtendsTable workspace) (fun c _ => extends_call c) session

/-- **A table of slots stays right whatever calls are made**, and whether they end well or not.
After any calls `front` that started with an empty table, names have slots of their own, the slots
are those that have a name, and each is reserved by an instruction of the program under its name,
which ends in its version.  No calls `back` that come later change or remove an entry. -/
theorem backed_calls (p : Program) (shared : Shared) (names : Names) (log : List Event)
    (listings : List Listing) (front back : List Call) :
    let start : Workspace := { program := p, context := { shared, names }, log }
    let session := calls { workspace := start, listings } front
    session.workspace.context.slots.Backed session.program ∧
      session.workspace.context.slots.Includes (session.calls back).workspace.context.slots := by
  intro start session
  have hstart : start.context.slots.Backed start.program := Slots.backed_empty p
  have hbacked := (extends_calls { workspace := start, listings } front hstart).1
  exact ⟨hbacked, (extends_calls session back hbacked).2⟩

end Session

end LevelIr
