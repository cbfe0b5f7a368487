import LevelIr.Proofs.Listing.Contiguous
import LevelIr.Proofs.Workspace

/-!
# The walk over a program

Listing walks over the functions of a program, over their blocks, and over the instructions of
these.  Instructions affect each other only through the workspace.  So what is known of the
statements of one instruction, in every workspace with some invariant, is known of all instructions
of a listing.

* `Workspace.Walks` : what has to be known of one instruction.
* `Program.Walked` : what is then known of the bodies of all functions.
* `Workspace.Walks.transcribe` : a listing is made of such bodies.
* `Workspace.StatesAll` : what has to be known in order to know something of every statement.
-/

namespace LevelIr

namespace Program

variable (p : Program)

/-- The instructions of a block, in order. -/
def instsOf (b : BlockId) : List InstId := ((p.block? b).map Block.insts).getD []

/-- The blocks of a function, in layout order. -/
def blocksOf (f : FunctionId) : List BlockId := ((p.function? f).map Function.blocks).getD []

/-- The bodies of the functions that are listed, where each instruction has statements with `Q`. -/
def Walked (Q : InstId → List Statement → Prop) (bodies : List (FunctionId × Body)) : Prop :=
  List.Forall₂ (fun f function => function.1 = f ∧
    List.Forall₂ (fun b part => part.1 = b ∧
      ∃ lists, List.Forall₂ Q (p.instsOf b) lists ∧ part.2 = lists.flatten)
    (p.blocksOf f) function.2) p.listedFunctions bodies

end Program

namespace Body

/-- What is listed of a body. -/
def listed (discard : Bool) (body : Body) : Body :=
  if discard then body.withoutPointers else body

/-- Discarding statements leaves the blocks as they are. -/
theorem map_fst_listed (discard : Bool) (body : Body) :
    (body.listed discard).map Prod.fst = body.map Prod.fst := by
  unfold listed
  split
  · rw [withoutPointers, List.map_map]
    rfl
  · rfl

theorem exists_of_mem_listed {discard : Bool} {body : Body} {part : BlockId × List Statement}
    (h : part ∈ body.listed discard) :
    ∃ all, (part.1, all) ∈ body ∧ part.2.Sublist all ∧ (discard = false → part.2 = all) := by
  unfold listed at h
  split at h
  · obtain ⟨⟨b, all⟩, hmem, rfl⟩ := List.mem_map.1 h
    exact ⟨all, hmem, List.filter_sublist, fun hdiscard => by simp_all⟩
  · exact ⟨part.2, h, List.Sublist.refl _, fun _ => rfl⟩

end Body

namespace Workspace

/-- In every workspace with the invariant `I`, the program is `p` up to names, and the statements of
an instruction have `Q` and leave a workspace with the invariant behind. -/
structure Walks (p : Program) (I : Workspace → Prop) (Q : InstId → List Statement → Prop) :
    Prop where
  nameless : ∀ w, I w → w.program.nameless = p.nameless
  log : ∀ w log, I w → I { w with log }
  inst : ∀ i, Pass.Yields I (Q i) (transcribeInst i)

namespace Walks

variable {p : Program} {I : Workspace → Prop} {Q : InstId → List Statement → Prop}
  (h : Walks p I Q)

include h

theorem imp {Q' : InstId → List Statement → Prop} (hQ : ∀ i ss, Q i ss → Q' i ss) :
    Walks p I Q' where
  nameless := h.nameless
  log := h.log
  inst i _ _ _ hw hlater := by
    obtain ⟨hss, hlater⟩ := h.inst i hw hlater
    exact ⟨hQ i _ hss, hlater⟩

theorem report (event : Event) : Pass.Yields I (fun _ => True) (report event) := by
  intro w _ later hw hlater
  cases hlater
  exact ⟨trivial, h.log w _ hw⟩

theorem transcribeBlock (b : BlockId) :
    Pass.Yields I (fun part => part.1 = b ∧ ∃ lists, List.Forall₂ Q (p.instsOf b) lists ∧
      part.2 = lists.flatten) (transcribeBlock b) := by
  refine Pass.yields_get_bind fun w hw => ?_
  refine (Pass.yields_lift (Q := fun block => p.instsOf b = block.insts)
    fun block hblock => ?_).bind fun block hblock => ?_
  · rw [Program.block_eq_ok_iff, Program.block?_of_nameless (h.nameless w hw)] at hblock
    rw [Program.instsOf, hblock]
    rfl
  · rw [hblock]
    exact (Pass.yields_mapM h.inst block.insts).bind fun lists hlists =>
      Pass.yields_pure ⟨rfl, lists, hlists, rfl⟩

theorem transcribeBody (discard : Bool) (f : FunctionId) :
    Pass.Yields I (fun found => ∃ body : Body, List.Forall₂ (fun b part => part.1 = b ∧
        ∃ lists, List.Forall₂ Q (p.instsOf b) lists ∧ part.2 = lists.flatten) (p.blocksOf f) body ∧
      found = body.listed discard) (transcribeBody discard f) := by
  refine Pass.yields_get_bind fun w hw => ?_
  refine (Pass.yields_lift (Q := fun function => p.blocksOf f = function.blocks)
    fun function hfunction => ?_).bind fun function hfunction => ?_
  · rw [Program.function_eq_ok_iff, Program.function?_of_nameless (h.nameless w hw)] at hfunction
    rw [Program.blocksOf, hfunction]
    rfl
  · rw [hfunction]
    exact (Pass.yields_mapM h.transcribeBlock function.blocks).bind fun body hbody =>
      (h.report _).bind fun _ _ => Pass.yields_pure ⟨body, hbody, rfl⟩

theorem transcribeFunction (discard : Bool) (l : Listing) (f : FunctionId) :
    Pass.Yields I (fun l' => ∃ body : Body, List.Forall₂ (fun b part => part.1 = b ∧
        ∃ lists, List.Forall₂ Q (p.instsOf b) lists ∧ part.2 = lists.flatten) (p.blocksOf f) body ∧
      l' = l.addBody f (body.listed discard)) (transcribeFunction discard l f) := by
  refine (h.transcribeBody discard f).bind ?_
  rintro _ ⟨body, hbody, rfl⟩
  exact Pass.yields_pure ⟨body, hbody, rfl⟩

theorem transcribeFunctions (discard : Bool) (l : Listing) (functions : List FunctionId) :
    Pass.Yields I (fun l' => ∃ bodies : List (FunctionId × Body),
      List.Forall₂ (fun f function => function.1 = f ∧
        List.Forall₂ (fun b part => part.1 = b ∧
          ∃ lists, List.Forall₂ Q (p.instsOf b) lists ∧ part.2 = lists.flatten)
        (p.blocksOf f) function.2) functions bodies ∧
      l' = l.addBodies (bodies.map fun function => (function.1, function.2.listed discard)))
      (functions.foldlM (Workspace.transcribeFunction discard) l) := by
  induction functions generalizing l with
  | nil => exact Pass.yields_pure ⟨[], .nil, rfl⟩
  | cons f functions ih =>
    rw [List.foldlM_cons]
    refine (h.transcribeFunction discard l f).bind ?_
    rintro _ ⟨body, hbody, rfl⟩ w l' later hw hl'
    obtain ⟨⟨bodies, hbodies, rfl⟩, hlater⟩ := ih _ hw hl'
    exact ⟨⟨(f, body) :: bodies, .cons ⟨rfl, hbody⟩ hbodies, rfl⟩, hlater⟩

/-- A listing is made of the bodies of the functions that are listed. -/
theorem transcribe (discard : Bool) :
    Pass.Yields I (fun l => ∃ bodies, p.Walked Q bodies ∧ l = Listing.addBodies {}
      (bodies.map fun function => (function.1, function.2.listed discard)))
      (transcribe discard) := by
  refine Pass.yields_get_bind fun w hw => ?_
  rw [Program.listedFunctions_of_nameless (h.nameless w hw)]
  exact (h.transcribeFunctions discard {} p.listedFunctions).bind fun l hl =>
    (h.report _).bind fun _ _ => Pass.yields_pure hl

end Walks

/-! ### What holds of every statement -/

/-- A workspace with the program `p` up to names, with the given slots, and with shared operands
that have `I`. -/
structure Carries (p : Program) (slots : Slots) (I : Shared → Prop) (w : Workspace) : Prop where
  nameless : w.program.nameless = p.nameless
  slots : w.context.slots = slots
  shared : I w.context.shared

/-- As long as `I` holds of the shared operands, the statement of an instruction has `P`, what is
shared for a parameter has `Q`, and so the statements that hand over arguments have `P` too. -/
structure StatesAll (p : Program) (slots : Slots) (I : Shared → Prop)
    (Q : ValueId → Operand → Prop) (P : Statement → Prop) : Prop where
  ofInst : ∀ q : Program, q.nameless = p.nameless → ∀ i,
    Pass.Yields I P (Statement.ofInst q slots i)
  operand : ∀ q : Program, q.nameless = p.nameless → ∀ v, Pass.Yields I (Q v) (Shared.operand q v)
  bind : ∀ call, P call → ∀ f formals, call.action = .call (.direct f formals) →
    ∀ pair ∈ formals.zip call.operands, ∀ operand, Q pair.1 operand →
      P (.bindArgument call.source operand pair.2 call.line)

section Carries

variable {p : Program} {slots : Slots} {I : Shared → Prop}

theorem yields_carries_report (event : Event) :
    Pass.Yields (Carries p slots I) (fun _ => True) (report event) := by
  intro w _ later hw h
  cases h
  exact ⟨trivial, hw.nameless, hw.slots, hw.shared⟩

theorem yields_carries_nameValue (v : ValueId) :
    Pass.Yields (Carries p slots I) (fun _ => True) (nameValue v) := by
  intro w _ later hw h
  have hcontinues := (keeps_nameValue v).of_outcome h
  have hshared : later.context.shared = w.context.shared := by
    rw [outcome_nameValue] at h
    split at h
    · cases h
      rfl
    · cases h
  exact ⟨trivial, hcontinues.nameless.trans hw.nameless, hcontinues.slots.trans hw.slots,
    hshared ▸ hw.shared⟩

theorem yields_carries_onShared {α : Type} {Q : α → Prop} {pass : Pass Shared α}
    (h : Pass.Yields I Q pass) : Pass.Yields (Carries p slots I) Q (onShared pass) := by
  intro w a later hw hlater
  rw [outcome_onShared] at hlater
  obtain ⟨ha, rfl⟩ := Prod.mk.inj hlater
  obtain ⟨hQ, hI⟩ := h hw.shared (Pass.outcome_eq_of_fst ha)
  exact ⟨hQ, hw.nameless, hw.slots, hI⟩

variable {Q : ValueId → Operand → Prop} {P : Statement → Prop} (h : StatesAll p slots I Q P)

include h

theorem StatesAll.toStatement (i : InstId) :
    Pass.Yields (Carries p slots I) P (toStatement i) := by
  refine Pass.yields_get_bind fun w hw => yields_carries_onShared ?_
  rw [hw.slots]
  exact h.ofInst _ hw.nameless i

theorem StatesAll.sharedOperand (v : ValueId) :
    Pass.Yields (Carries p slots I) (Q v) (sharedOperand v) :=
  Pass.yields_get_bind fun _ hw => yields_carries_onShared (h.operand _ hw.nameless v)

theorem StatesAll.bindArguments {call : Statement} (hcall : P call) :
    Pass.Yields (Carries p slots I) (fun bindings => ∀ b ∈ bindings, P b) (bindArguments call) := by
  unfold Workspace.bindArguments
  split
  · rename_i f formals haction
    have hall : ∀ pairs : List (ValueId × Reference),
        (∀ pair ∈ pairs, pair ∈ formals.zip call.operands) →
        Pass.Yields (Carries p slots I) (fun bindings => ∀ b ∈ bindings, P b)
          (pairs.mapM fun pair => bindArgument call pair.1 pair.2) := by
      intro pairs hpairs
      induction pairs with
      | nil => exact Pass.yields_pure fun _ hb => by cases hb
      | cons pair pairs ih =>
        rw [List.forall_mem_cons] at hpairs
        have hone : Pass.Yields (Carries p slots I) P (bindArgument call pair.1 pair.2) :=
          (yields_carries_nameValue pair.1).bind fun _ _ =>
            (h.sharedOperand pair.1).bind fun operand hoperand =>
              Pass.yields_pure (h.bind call hcall f formals haction pair hpairs.1 operand hoperand)
        rw [List.mapM_cons]
        exact hone.bind fun b hb => (ih hpairs.2).bind fun bs hbs =>
          Pass.yields_pure (List.forall_mem_cons.2 ⟨hb, hbs⟩)
    refine Pass.yields_get_bind fun w _ =>
      (Pass.yields_lift (Q := fun _ => True) fun _ _ => trivial).bind fun _ _ => ?_
    split
    · exact (yields_carries_report _).bind fun _ _ => hall _ fun _ hpair => hpair
    · exact hall _ fun _ hpair => hpair
  · exact Pass.yields_pure fun _ hb => by cases hb

/-- What holds of the statement of every instruction, and of the statements that hand over the
arguments of a call, holds of all statements. -/
theorem StatesAll.walks :
    Walks p (Carries p slots I) fun _ statements => ∀ s ∈ statements, P s where
  nameless _ hw := hw.nameless
  log _ _ hw := ⟨hw.nameless, hw.slots, hw.shared⟩
  inst i := by
    refine Pass.yields_get_bind fun w _ =>
      (Pass.yields_lift (Q := fun _ => True) fun _ _ => trivial).bind fun inst _ => ?_
    split
    · exact Pass.yields_pure fun _ hs => by cases hs
    · refine (Pass.yields_forM yields_carries_nameValue _).bind fun _ _ =>
        (h.toStatement i).bind fun s hs => (yields_carries_report _).bind fun _ _ =>
          (h.bindArguments hs).bind fun bindings hbindings => Pass.yields_pure ?_
      exact List.forall_mem_append.2 ⟨hbindings, List.forall_mem_singleton.2 hs⟩

end Carries

end Workspace

end LevelIr
