import LevelIr.Proofs.Machine
import LevelIr.Proofs.Slot.Effect
import LevelIr.Proofs.Slot.Sharing

/-!
# Versioning keeps the meaning of straight-line code

A block that only reserves, reads and writes memory runs on a machine: the memory that it reserves
is at addresses that nobody knows before.  Versioning such a block succeeds.  If the oracle is sound
on a run, so that loads of the same storage with the same version read the same word, then all loads
read the same words after versioning.

The proof runs the block before and after versioning side by side.  No word of the machine before is
ever the address of a slot (`Hidden`), so that no store, whatever it writes through, can reach one.
The machine after agrees with it everywhere else, and each slot keeps the word that was read by the
load it was made for (`Agrees`).

* `Machine.execInst`, `Machine.runInsts` : what instructions do.
* `Agrees.step`, `Agrees.run` : what one instruction and what stands for it do, and what the whole
  block does.
* `Workspace.versionFunction_preserves` : versioning succeeds, and keeps the words of all loads and
  the memory outside the slots.
-/

namespace LevelIr

/-! ### What instructions do -/

namespace Machine

variable {W : Type}

/-- The values have addresses of their own, which the machine does not know yet. -/
structure Fresh (σ : Machine W) (address : ValueId → W) (values : List ValueId) : Prop where
  unique : ∀ v ∈ values, ∀ v' ∈ values, address v = address v' → v = v'
  env : ∀ v ∈ values, ∀ u, σ.env u ≠ address v
  mem : ∀ v ∈ values, ∀ a, σ.mem a ≠ address v

variable [DecidableEq W] (address : ValueId → W)

/-- What an instruction does that reserves, reads or writes memory, if `address` says where the
memory is that it reserves. -/
def execInst (σ : Machine W) (inst : Inst) : Machine W :=
  match inst.opcode with
  | .alloca =>
    match inst.result with
    | some r => { σ with env := Function.update σ.env r (address r) }
    | none => σ
  | .load =>
    match inst.operands.head?.bind Arg.value?, inst.result with
    | some v, some r => { σ with env := Function.update σ.env r (σ.mem (σ.env v)) }
    | _, _ => σ
  | .store =>
    match inst.operands with
    | .value stored :: .value target :: _ =>
      { σ with mem := Function.update σ.mem (σ.env target) (σ.env stored) }
    | _ => σ
  | _ => σ

/-- What instructions of a program do, one after the other. -/
def runInsts (p : Program) (σ : Machine W) (insts : List InstId) : Machine W :=
  insts.foldl (fun σ i => ((p.inst? i).map (execInst address σ)).getD σ) σ

variable {address} {p : Program} {σ : Machine W} {inst : Inst}

theorem runInsts_append (insts insts' : List InstId) :
    runInsts address p σ (insts ++ insts') =
      runInsts address p (runInsts address p σ insts) insts' :=
  List.foldl_append

theorem runInsts_cons {i : InstId} (h : p.inst? i = some inst) (insts : List InstId) :
    runInsts address p σ (i :: insts) =
      runInsts address p (execInst address σ inst) insts := by
  rw [runInsts, List.foldl_cons, h]
  rfl

theorem execInst_load {v r : ValueId} (hopcode : inst.opcode = .load)
    (hreads : inst.operands.head? = some (.value v)) (hresult : inst.result = some r) :
    execInst address σ inst = { σ with env := Function.update σ.env r (σ.mem (σ.env v)) } := by
  have hv : inst.operands.head?.bind Arg.value? = some v := Versioning.head?_bind_value?.2 hreads
  simp only [execInst, hopcode, hv, hresult]

/-- An instruction changes no word but that of its result. -/
theorem env_execInst {v : ValueId} (h : inst.result ≠ some v) :
    (execInst address σ inst).env v = σ.env v := by
  unfold execInst
  split
  · split
    · rename_i r hr
      have hne : v ≠ r := by
        rintro rfl
        exact h hr
      exact Function.update_of_ne hne _ _
    · rfl
  · split
    · rename_i u r _ hr
      have hne : v ≠ r := by
        rintro rfl
        exact h hr
      exact Function.update_of_ne hne _ _
    · rfl
  · split <;> rfl
  · rfl

theorem env_runInsts {v : ValueId} {insts : List InstId}
    (h : ∀ i ∈ insts, ∀ inst, p.inst? i = some inst → inst.result ≠ some v) :
    (runInsts address p σ insts).env v = σ.env v := by
  induction insts generalizing σ with
  | nil => rfl
  | cons i insts ih =>
    have hrest : ∀ j ∈ insts, ∀ inst, p.inst? j = some inst → inst.result ≠ some v :=
      fun j hj => h j (List.mem_cons_of_mem i hj)
    cases hi : p.inst? i with
    | none =>
      rw [runInsts, List.foldl_cons, hi]
      exact ih hrest
    | some inst => rw [runInsts_cons hi, ih hrest, env_execInst (h i List.mem_cons_self inst hi)]

end Machine

/-! ### Straight-line code -/

/-- Whether an instruction reserves memory, reads a word from it, or writes to it. -/
def Inst.isStraight (inst : Inst) : Bool :=
  inst.opcode = .alloca || inst.opcode = .load && !inst.type.isVoid || inst.opcode = .store

theorem Inst.type_of_isStraight {inst : Inst} (h : inst.isStraight = true)
    (hload : inst.opcode = .load) : inst.type ≠ .void := by
  intro hvoid
  simp [isStraight, hload, hvoid, Ty.isVoid] at h

namespace Program

/-- Whether a block is made of such instructions, and their operands are values of the program. -/
def isStraight (p : Program) (b : BlockId) : Bool :=
  (p.instsOf b).all fun i => (p.inst? i).any fun inst =>
    inst.isStraight && inst.valueOperands.all fun v => (p.value? v).isSome

/-- The values that stand for the memory which the instructions of a block reserve. -/
def reserved (p : Program) (b : BlockId) : List ValueId :=
  (p.instsOf b).filterMap fun i => (p.inst? i).bind fun inst =>
    if inst.opcode = .alloca then inst.result else none

/-- The result of an instruction. -/
def result? (p : Program) (i : InstId) : Option ValueId := (p.inst? i).bind Inst.result

variable {p : Program}

theorem mem_instsOf_of_mem_loadsOf {function : Function} {b : BlockId}
    (hb : function.blocks = [b]) {i : InstId} (hi : i ∈ p.loadsOf function) : i ∈ p.instsOf b := by
  have hlayout : p.layout function = p.instsOf b := by simp [layout, hb]
  exact hlayout ▸ mem_layout_of_mem_loadsOf hi

theorem exists_of_isStraight {b : BlockId} (h : p.isStraight b = true) {i : InstId}
    (hi : i ∈ p.instsOf b) :
    ∃ inst, p.inst? i = some inst ∧ inst.isStraight = true ∧
      ∀ v, .value v ∈ inst.operands → ∃ value, p.value? v = some value := by
  have hany := List.all_eq_true.1 h i hi
  obtain ⟨inst, hinst, hstraight⟩ := (Option.any_eq_true _ _).1 hany
  rw [Bool.and_eq_true, List.all_eq_true] at hstraight
  refine ⟨inst, hinst, hstraight.1, fun v hv => ?_⟩
  exact Option.isSome_iff_exists.1 (hstraight.2 v (List.mem_filterMap.2 ⟨.value v, hv, rfl⟩))

theorem mem_reserved {b : BlockId} {r : ValueId} : r ∈ p.reserved b ↔
    ∃ i ∈ p.instsOf b, ∃ inst, p.inst? i = some inst ∧ inst.opcode = .alloca ∧
      inst.result = some r := by
  simp only [reserved, List.mem_filterMap, Option.bind_eq_some_iff, Option.ite_none_right_eq_some]

/-- No two instructions have the same result. -/
theorem Coherent.inst_of_result (hp : p.Coherent) {i j : InstId} {inst inst' : Inst} {r : ValueId}
    (hi : p.inst? i = some inst) (hj : p.inst? j = some inst') (hr : inst.result = some r)
    (hr' : inst'.result = some r) : i = j := by
  obtain ⟨value, hvalue, horigin, -⟩ := hp.value_of_result hi hr
  obtain ⟨value', hvalue', horigin', -⟩ := hp.value_of_result hj hr'
  rw [hvalue, Option.some.injEq] at hvalue'
  rw [← hvalue', horigin] at horigin'
  exact Origin.result.inj horigin'

end Program

namespace Versioning

variable {oracle : Oracle} {p q : Program} {slots table : Slots}

/-! ### Runs that succeed -/

/-- Versioning succeeds on loads that read values of the program and have results. -/
theorem exists_run (hp : p.Coherent) {jobs : List Job} (hnodup : (jobs.map Job.load).Nodup)
    (hjobs : ∀ job ∈ jobs, (∃ k, (oracle job.load).version? = some k) ∧
      ∃ inst, p.inst? job.load = some inst ∧ inst.type ≠ .void ∧
        ∀ v, inst.operands.head? = some (.value v) → ∃ value, p.value? v = some value) :
    ∃ n state, Run oracle jobs (p, slots) n state := by
  refine exists_run_of_wants hp hnodup fun job hjob => ?_
  obtain ⟨hversion, hinst⟩ := hjobs job hjob
  exact ⟨fun _ => hversion, hinst⟩

/-! ### What stands for an instruction after versioning -/

section Block

variable {made : List Filling} {function : Function} {b : BlockId} {front back : List InstId}
  {i : InstId} {inst : Inst}

theorem job_eq_of_mem {job : Job} (hjob : job ∈ jobsOf p function) (hload : job.load = i) :
    job = ⟨function.name, i⟩ := by
  rw [← (mem_jobsOf.1 hjob).1, ← hload]

/-- Versioning leaves an instruction of a block as it is, or it is a load that reads a slot now.
The slot was made for this load, or for one that comes earlier. -/
theorem Progress.block_cases (h : Progress oracle p {} (jobsOf p function) made q table)
    (hp : p.Coherent) {f : FunctionId} (hf : p.function? f = some function)
    (hb : function.blocks = [b]) (hinsts : p.instsOf b = front ++ i :: back)
    (hinst : p.inst? i = some inst) :
    (q.inst? i = some inst ∧ inserted made i = []) ∨
      ∃ m ∈ made, ∃ r, i ∈ p.loadsOf function ∧ Asks oracle p {} ⟨function.name, i⟩ r ∧
        r.name = m.request.name ∧ q.inst? i = some (inst.reading m.slot) ∧
        (m.job.load = i ∧ m.inst = inst ∧ inserted made i = m.insts ∨
          m.job.load ∈ front ∧ inserted made i = []) := by
  by_cases hasked : i ∈ p.loadsOf function ∧ ∃ r, Asks oracle p {} ⟨function.name, i⟩ r
  · obtain ⟨hload, r, hr⟩ := hasked
    obtain ⟨old, slot, hold, hslot, hq⟩ :=
      h.redirected ⟨function.name, i⟩ (mem_jobsOf.2 ⟨rfl, hload⟩) r hr
    obtain rfl : inst = old := Option.some.inj (hinst.symm.trans hold)
    rcases (h.slot r.name slot).1 hslot with hempty | ⟨m, hm, hname, rfl⟩
    · cases hempty
    refine .inr ⟨m, hm, r, hload, hr, hname.symm, hq, ?_⟩
    have hmade := h.filling m hm
    have hjob := h.mem_done hm
    by_cases heq : m.job.load = i
    · subst heq
      refine .inl ⟨rfl, Option.some.inj (hmade.inst.symm.trans hinst), ?_⟩
      exact inserted_of_mem (h.ordered.imp Filling.Precedes.load) hm
    · refine .inr ⟨?_, inserted_eq_nil fun m' hm' heq' => ?_⟩
      · -- the slot was made for the first load that has asked for it
        have hmem := Program.mem_instsOf_of_mem_loadsOf hb (mem_jobsOf.1 hjob).2
        rw [hinsts, List.mem_append, List.mem_cons] at hmem
        rcases hmem with hfront | heq' | hback
        · exact hfront
        · exact absurd heq' heq
        · exact absurd hback (h.load_not_mem_back (hp.layout_nodup hf) hm hload hr hname.symm
            (by simp [hb]) hinsts)
      · have hasks := (h.filling m' hm').asks
        rw [job_eq_of_mem (h.mem_done hm') heq'] at hasks
        have hsame := congrArg Request.name (hasks.eq hr)
        rcases h.precedes_or hm' hm with rfl | hprecedes | hprecedes
        · exact heq heq'
        · exact hprecedes.name (hsame.trans hname.symm)
        · exact hprecedes.name (hname.trans hsame.symm)
  · refine .inl ⟨?_, inserted_eq_nil fun m hm heq => hasked ?_⟩
    · rw [h.kept i (Program.index_lt_of_inst? hinst) fun job hjob hload r hr => hasked ?_, hinst]
      rw [job_eq_of_mem hjob hload] at hr
      exact ⟨hload ▸ (mem_jobsOf.1 hjob).2, r, hr⟩
    · have hasks := (h.filling m hm).asks
      rw [job_eq_of_mem (h.mem_done hm) heq] at hasks
      exact ⟨heq ▸ (mem_jobsOf.1 (h.mem_done hm)).2, _, hasks⟩

theorem Progress.load_mem (h : Progress oracle p slots (jobsOf p function) made q table)
    (hb : function.blocks = [b]) {m : Filling} (hm : m ∈ made) : m.job.load ∈ p.instsOf b :=
  Program.mem_instsOf_of_mem_loadsOf hb (mem_jobsOf.1 (h.mem_done hm)).2

/-- The slots are memory that the block reserves. -/
theorem Progress.slot_mem_reserved (h : Progress oracle p slots (jobsOf p function) made q table)
    (hb : function.blocks = [b]) {m : Filling} (hm : m ∈ made) : m.slot ∈ q.reserved b := by
  refine Program.mem_reserved.2
    ⟨m.reserver, ?_, m.reserverInst, (h.filling m hm).reserver, rfl, rfl⟩
  rw [h.instsOf_eq]
  exact mem_weave.2 ⟨m.job.load, h.load_mem hb hm,
    .inl (mem_inserted.2 ⟨m, hm, rfl, by simp [Filling.insts]⟩)⟩

/-- The memory that the block has reserved before is still reserved. -/
theorem Progress.mem_reserved {done : List Job} (h : Progress oracle p slots done made q table)
    {r : ValueId} (hr : r ∈ p.reserved b) : r ∈ q.reserved b := by
  obtain ⟨i, hi, inst, hinst, hopcode, hresult⟩ := Program.mem_reserved.1 hr
  obtain ⟨inst', hinst', hopcode', hresult'⟩ := h.exists_inst hinst
  refine Program.mem_reserved.2 ⟨i, ?_, inst', hinst', hopcode'.trans hopcode,
    hresult'.trans hresult⟩
  rw [h.instsOf_eq]
  exact mem_weave_of_mem hi

end Block

/-! ### The machines before and after versioning -/

section Machines

variable {W : Type} {address : ValueId → W} {made : List Filling} {s t final : Machine W}

/-- No word of a machine is the address of a slot. -/
structure Hidden (made : List Filling) (address : ValueId → W) (s : Machine W) : Prop where
  env : ∀ m ∈ made, ∀ v, s.env v ≠ address m.slot
  mem : ∀ m ∈ made, ∀ a, s.mem a ≠ address m.slot

/-- The machine `t` agrees with `s` on the values of the program and on the memory outside the
slots.  Each slot that was made for a load of `done` holds the word that this load has in the
end. -/
structure Agrees (p : Program) (made : List Filling) (address : ValueId → W) (final : Machine W)
    (done : List InstId) (s t : Machine W) : Prop where
  env : ∀ v, v.index < p.values.size → t.env v = s.env v
  mem : ∀ a, (∀ m ∈ made, a ≠ address m.slot) → t.mem a = s.mem a
  filled : ∀ m ∈ made, m.job.load ∈ done → t.env m.slot = address m.slot ∧
    m.inst.result.map final.env = some (t.mem (address m.slot))

theorem Agrees.read {done : List InstId} (h : Agrees p made address final done s t)
    (hs : Hidden made address s) {v : ValueId} (hv : v.index < p.values.size) :
    t.mem (t.env v) = s.mem (s.env v) := by
  rw [h.env v hv]
  exact h.mem _ fun m hm => hs.env m hm v

/-- Setting the same word in both machines. -/
theorem Agrees.setEnv {done : List InstId} (h : Agrees p made address final done s t)
    (hnew : ∀ m ∈ made, p.values.size ≤ m.slot.index) {r : ValueId} (hr : r.index < p.values.size)
    (w : W) : Agrees p made address final done { s with env := Function.update s.env r w }
      { t with env := Function.update t.env r w } where
  env v hv := Machine.update_congr w (h.env v hv)
  mem := h.mem
  filled m hm hdone := by
    have hne : m.slot ≠ r := by
      rintro rfl
      have := hnew m hm
      omega
    refine ⟨?_, (h.filled m hm hdone).2⟩
    rw [← (h.filled m hm hdone).1]
    exact Function.update_of_ne hne _ _

theorem Agrees.concat {done : List InstId} (h : Agrees p made address final done s t) {i : InstId}
    (hi : ∀ m ∈ made, m.job.load ≠ i) : Agrees p made address final (done ++ [i]) s t where
  env := h.env
  mem := h.mem
  filled m hm hdone := by
    rcases List.mem_append.1 hdone with hbefore | hlast
    · exact h.filled m hm hbefore
    · exact absurd (List.mem_singleton.1 hlast) (hi m hm)

variable [DecidableEq W]

/-- Writing the same word to memory outside the slots. -/
theorem Agrees.setMem {done : List InstId} (h : Agrees p made address final done s t) {a : W}
    (ha : ∀ m ∈ made, a ≠ address m.slot) (w : W) :
    Agrees p made address final done { s with mem := Function.update s.mem a w }
      { t with mem := Function.update t.mem a w } where
  env := h.env
  mem a' ha' := by
    by_cases heq : a' = a
    · rw [heq]
      simp
    · simp only [Function.update_of_ne heq]
      exact h.mem a' ha'
  filled m hm hdone := by
    refine ⟨(h.filled m hm hdone).1, ?_⟩
    rw [(h.filled m hm hdone).2]
    simp only [Function.update_of_ne (ha m hm).symm]

/-- Slots stay hidden. -/
theorem Hidden.execInst (h : Hidden made address s) {inst : Inst}
    (halloca : inst.opcode = .alloca → ∀ r, inst.result = some r →
      ∀ m ∈ made, address r ≠ address m.slot) :
    Hidden made address (Machine.execInst address s inst) := by
  have hset {r : ValueId} {w : W} (hw : ∀ m ∈ made, w ≠ address m.slot) :
      Hidden made address { s with env := Function.update s.env r w } := by
    refine ⟨fun m hm v => ?_, h.mem⟩
    by_cases hv : v = r
    · rw [hv]
      simpa using hw m hm
    · simpa [Function.update_of_ne hv] using h.env m hm v
  unfold Machine.execInst
  split
  · rename_i hopcode
    split
    · rename_i r hr
      exact hset (halloca hopcode r hr)
    · exact h
  · split
    · exact hset fun m hm => h.mem m hm _
    · exact h
  · split
    · rename_i stored target _ _
      refine ⟨h.env, fun m hm a => ?_⟩
      by_cases ha : a = s.env target
      · rw [ha]
        simpa using h.env m hm stored
      · simpa [Function.update_of_ne ha] using h.mem m hm a
    · exact h
  · exact h

/-- An instruction that versioning leaves as it is does the same in both machines. -/
theorem Agrees.execInst {done : List InstId} (h : Agrees p made address final done s t)
    (hs : Hidden made address s) (hnew : ∀ m ∈ made, p.values.size ≤ m.slot.index) {inst : Inst}
    (hoperands : ∀ v, .value v ∈ inst.operands → v.index < p.values.size)
    (hresult : ∀ r, inst.result = some r → r.index < p.values.size) :
    Agrees p made address final done (Machine.execInst address s inst)
      (Machine.execInst address t inst) := by
  unfold Machine.execInst
  split
  · split
    · rename_i r hr
      exact h.setEnv hnew (hresult r hr) _
    · exact h
  · split
    · rename_i v r hv hr
      have hmem : .value v ∈ inst.operands := List.mem_of_head? (head?_bind_value?.1 hv)
      rw [h.read hs (hoperands v hmem)]
      exact h.setEnv hnew (hresult r hr) _
    · exact h
  · split
    · rename_i stored target _ hlist
      rw [h.env stored (hoperands stored (by simp [hlist])),
        h.env target (hoperands target (by simp [hlist]))]
      exact h.setMem (fun m hm => hs.env m hm target) _
    · exact h
  · exact h

/-- What the three instructions of a slot do. -/
theorem runInsts_filling {m : Filling} (hm : m.Made oracle p slots q) :
    Machine.runInsts address q t m.insts =
      { env := Function.update (Function.update t.env m.content (t.mem (t.env m.request.storage)))
          m.slot (address m.slot)
        mem := Function.update t.mem (address m.slot) (t.mem (t.env m.request.storage)) } := by
  have hcontent : m.content ≠ m.slot := by
    rw [Ne, ValueId.eq_iff]
    exact Nat.ne_of_lt (Nat.lt_succ_self _)
  have hreader : Machine.execInst address t m.readerInst =
      { t with env := Function.update t.env m.content (t.mem (t.env m.request.storage)) } := rfl
  have hreserver (σ : Machine W) : Machine.execInst address σ m.reserverInst =
      { σ with env := Function.update σ.env m.slot (address m.slot) } := rfl
  have hwriter (σ : Machine W) : Machine.execInst address σ m.writerInst =
      { σ with mem := Function.update σ.mem (σ.env m.slot) (σ.env m.content) } := rfl
  unfold Filling.insts
  rw [Machine.runInsts_cons hm.reader, hreader, Machine.runInsts_cons hm.reserver, hreserver,
    Machine.runInsts_cons hm.writer, hwriter]
  simp [Machine.runInsts, Function.update_of_ne hcontent]

/-- A slot is filled with the word that is read from the storage. -/
theorem Agrees.fill {done : List InstId} {jobs : List Job}
    (h : Agrees p made address final done s t) (hs : Hidden made address s)
    (hprogress : Progress oracle p slots jobs made q table)
    (hunique : ∀ m ∈ made, ∀ m' ∈ made, address m.slot = address m'.slot → m = m') {m : Filling}
    (hm : m ∈ made)
    (hword : m.inst.result.map final.env = some (s.mem (s.env m.request.storage))) :
    Agrees p made address final (done ++ [m.job.load]) s
      (Machine.runInsts address q t m.insts) := by
  have hmade := hprogress.filling m hm
  have hslot (m : Filling) : m.slot.index = m.content.index + 1 := rfl
  have hread : t.mem (t.env m.request.storage) = s.mem (s.env m.request.storage) := by
    obtain ⟨value, hvalue, -⟩ := hmade.asks.memory
    exact h.read hs (Program.index_lt_of_value? hvalue)
  rw [runInsts_filling hmade, hread]
  refine ⟨fun v hv => ?_, fun a ha => ?_, fun m' hm' hdone => ?_⟩
  · have hnew := hmade.content_new
    have hindex := hslot m
    rw [← h.env v hv]
    dsimp only
    rw [Function.update_of_ne (by rw [Ne, ValueId.eq_iff]; omega),
      Function.update_of_ne (by rw [Ne, ValueId.eq_iff]; omega)]
  · rw [← h.mem a ha]
    exact Function.update_of_ne (ha m hm) _ _
  · by_cases heq : m' = m
    · subst heq
      dsimp only
      rw [Function.update_self, Function.update_self]
      exact ⟨rfl, hword⟩
    · -- the other slots and their addresses are other ones
      have haddress : address m'.slot ≠ address m.slot := fun e => heq (hunique m' hm' m hm e)
      have hapart : m'.slot ≠ m.content ∧ m'.slot ≠ m.slot ∧ m'.job.load ≠ m.job.load := by
        have hindex := hslot m
        have hindex' := hslot m'
        rw [Ne, Ne, ValueId.eq_iff, ValueId.eq_iff]
        rcases hprogress.precedes_or hm' hm with hsame | hprecedes | hprecedes
        · exact absurd hsame heq
        · have := hprecedes.values
          exact ⟨by omega, by omega, hprecedes.load⟩
        · have := hprecedes.values
          exact ⟨by omega, by omega, hprecedes.load.symm⟩
      have hbefore : m'.job.load ∈ done := by
        rcases List.mem_append.1 hdone with hbefore | hlast
        · exact hbefore
        · exact absurd (List.mem_singleton.1 hlast) hapart.2.2
      obtain ⟨henv, hmem⟩ := h.filled m' hm' hbefore
      dsimp only
      rw [Function.update_of_ne hapart.2.1, Function.update_of_ne hapart.1,
        Function.update_of_ne haddress]
      exact ⟨henv, hmem⟩

/-- A load of a slot that holds the word of the storage does what the load of the storage does. -/
theorem Agrees.load {done : List InstId} (h : Agrees p made address final done s t)
    (hnew : ∀ m ∈ made, p.values.size ≤ m.slot.index) {m : Filling} (hm : m ∈ made)
    (hdone : m.job.load ∈ done) {inst : Inst} (hopcode : inst.opcode = .load)
    {storage r : ValueId} (hreads : inst.operands.head? = some (.value storage))
    (hresult : inst.result = some r) (hr : r.index < p.values.size)
    (hword : m.inst.result.map final.env = some (s.mem (s.env storage))) :
    Agrees p made address final done (Machine.execInst address s inst)
      (Machine.execInst address t (inst.reading m.slot)) := by
  obtain ⟨henv, hmem⟩ := h.filled m hm hdone
  rw [hword, Option.some.injEq] at hmem
  have hload : Machine.execInst address t (inst.reading m.slot) =
      { t with env := Function.update t.env r (t.mem (t.env m.slot)) } :=
    Machine.execInst_load hopcode (Inst.head?_reading hreads m.slot) hresult
  rw [hload, Machine.execInst_load hopcode hreads hresult, henv, ← hmem]
  exact h.setEnv hnew hr _

/-! ### The whole block -/

/-- The loads of a block that read the same version of a storage read the same word, if `final` is
the machine after the block. -/
def Sound (oracle : Oracle) (p : Program) (b : BlockId) (final : Machine W) : Prop :=
  ∀ i ∈ p.instsOf b, ∀ j ∈ p.instsOf b, p.isLoad i = true → p.isLoad j = true →
    ∀ storage, p.IsStorage storage → p.source? i = some storage → p.source? j = some storage →
      (oracle i).version? = (oracle j).version? →
      (p.result? i).map final.env = (p.result? j).map final.env

section Simulation

variable {function : Function} {b : BlockId} {front back : List InstId} {i : InstId} {inst : Inst}
  {f : FunctionId} (hp : p.Coherent) (hresults : p.HasResults)
  (hf : p.function? f = some function) (hb : function.blocks = [b])
  (hstraight : p.isStraight b = true)
  (hprogress : Progress oracle p {} (jobsOf p function) made q table)
  (hunique : ∀ m ∈ made, ∀ m' ∈ made, address m.slot = address m'.slot → m = m')
  (hreserved : ∀ r ∈ p.reserved b, ∀ m ∈ made, address r ≠ address m.slot)
  (hword : ∀ i ∈ p.loadsOf function, ∀ r, Asks oracle p {} ⟨function.name, i⟩ r →
    ∀ m ∈ made, r.name = m.request.name →
      m.inst.result.map final.env = (p.result? i).map final.env)

include hp

/-- The result of an instruction keeps its word until the end of the block. -/
theorem env_runInsts_back (hinsts : p.instsOf b = front ++ i :: back)
    (hinst : p.inst? i = some inst) {r : ValueId} (hr : inst.result = some r) :
    (Machine.runInsts address p s back).env r = s.env r := by
  refine Machine.env_runInsts fun j hj inst' hinst' hr' => ?_
  have hnodup := hp.instsOf_nodup b
  rw [hinsts, List.nodup_append, List.nodup_cons] at hnodup
  obtain rfl : i = j := hp.inst_of_result hinst hinst' hr hr'
  exact hnodup.2.1.1 hj

include hresults hf hb hstraight hprogress hunique hreserved hword

/-- What one instruction does before versioning, and what stands for it does after it. -/
theorem Agrees.step (hinsts : p.instsOf b = front ++ i :: back) (hinst : p.inst? i = some inst)
    (h : Agrees p made address final front s t) (hs : Hidden made address s)
    (hfinal : final = Machine.runInsts address p (Machine.execInst address s inst) back) :
    Agrees p made address final (front ++ [i]) (Machine.execInst address s inst)
        (Machine.runInsts address q t (inserted made i ++ [i])) ∧
      Hidden made address (Machine.execInst address s inst) := by
  have hmem : i ∈ p.instsOf b := by simp [hinsts]
  obtain ⟨inst', hinst', hkind, hvalues⟩ := Program.exists_of_isStraight hstraight hmem
  obtain rfl : inst = inst' := Option.some.inj (hinst.symm.trans hinst')
  have hresult : ∀ r, inst.result = some r → r.index < p.values.size := by
    intro r hr
    obtain ⟨value, hvalue, -⟩ := hp.value_of_result hinst hr
    exact Program.index_lt_of_value? hvalue
  have hnew : ∀ m ∈ made, p.values.size ≤ m.slot.index := fun m hm =>
    Nat.le_succ_of_le (hprogress.filling m hm).content_new
  have hnone (hnil : inserted made i = []) : ∀ m ∈ made, m.job.load ≠ i := by
    intro m hm heq
    have hin : m.reader ∈ inserted made i := mem_inserted.2 ⟨m, hm, heq, by simp [Filling.insts]⟩
    rw [hnil] at hin
    cases hin
  refine ⟨?_, hs.execInst fun hopcode r hr => hreserved r (Program.mem_reserved.2
    ⟨i, hmem, inst, hinst, hopcode, hr⟩)⟩
  rcases hprogress.block_cases hp hf hb hinsts hinst with
    ⟨hq, hnil⟩ | ⟨m, hm, request, hload, hasks, hname, hq, hcase⟩
  · rw [hnil, List.nil_append, Machine.runInsts_cons hq]
    refine (h.execInst hs hnew (fun v hv => ?_) hresult).concat (hnone hnil)
    obtain ⟨value, hvalue⟩ := hvalues v hv
    exact Program.index_lt_of_value? hvalue
  · -- a load that reads a slot now: the slot holds the word that the load has in the end
    obtain ⟨inst', hinst', hreads⟩ := hasks.reads
    obtain rfl : inst = inst' := Option.some.inj (hinst.symm.trans hinst')
    have hopcode := Program.opcode_of_mem_loadsOf hload hinst
    obtain ⟨r, hr⟩ := hresults i inst hinst (Inst.type_of_isStraight hkind hopcode)
    have hread : m.inst.result.map final.env = some (s.mem (s.env request.storage)) := by
      rw [hword i hload request hasks m hm hname, Program.result?, hinst, Option.bind_some, hr,
        Option.map_some, hfinal, env_runInsts_back hp hinsts hinst hr,
        Machine.execInst_load hopcode hreads hr]
      simp
    rcases hcase with ⟨rfl, -, hins⟩ | ⟨hfront, hnil⟩
    · have hrequest : m.request = request := by
        have hmade := (hprogress.filling m hm).asks
        rw [job_eq_of_mem (hprogress.mem_done hm) rfl] at hmade
        exact hmade.eq hasks
      rw [hins, Machine.runInsts_append, Machine.runInsts_cons hq]
      refine (h.fill hs hprogress hunique hm (hrequest ▸ hread)).load hnew hm (by simp) hopcode
        hreads hr (hresult r hr) hread
    · rw [hnil, List.nil_append, Machine.runInsts_cons hq]
      exact (h.concat (hnone hnil)).load hnew hm (List.mem_append_left _ hfront) hopcode hreads hr
        (hresult r hr) hread

/-- What the whole block does before and after versioning. -/
theorem Agrees.run (hinsts : p.instsOf b = front ++ back)
    (h : Agrees p made address final front s t) (hs : Hidden made address s)
    (hfinal : final = Machine.runInsts address p s back) :
    Agrees p made address final (p.instsOf b) final
      (Machine.runInsts address q t (weave made back)) := by
  induction back generalizing front s t with
  | nil =>
    rw [List.append_nil] at hinsts
    rw [hinsts]
    exact hfinal ▸ h
  | cons i back ih =>
    obtain ⟨inst, hinst, -⟩ := Program.exists_of_isStraight hstraight (i := i) (by simp [hinsts])
    rw [Machine.runInsts_cons hinst] at hfinal
    obtain ⟨hnext, hhidden⟩ := Agrees.step hp hresults hf hb hstraight hprogress hunique hreserved
      hword hinsts hinst h hs hfinal
    have hweave : weave made (i :: back) = (inserted made i ++ [i]) ++ weave made back := by
      rw [weave_cons, List.append_assoc]
      rfl
    rw [hweave, Machine.runInsts_append]
    exact ih (by rw [hinsts, List.append_assoc]; rfl) hnext hhidden hfinal

omit hunique hreserved hword in
/-- What the block does before and after versioning, if the addresses of all memory that is reserved
are new and the oracle is sound. -/
theorem agrees_of_sound {σ : Machine W} (hfresh : σ.Fresh address (q.reserved b))
    (hnames : ∀ i ∈ p.loadsOf function, ∀ j ∈ p.loadsOf function, ∀ r r',
      Asks oracle p {} ⟨function.name, i⟩ r → Asks oracle p {} ⟨function.name, j⟩ r' →
      r.name = r'.name → r.storage = r'.storage ∧ r.version = r'.version)
    (hfinal : final = Machine.runInsts address p σ (p.instsOf b))
    (hsound : Sound oracle p b final) :
    Agrees p made address final (p.instsOf b) final
      (Machine.runInsts address q σ (q.instsOf b)) := by
  have hslot {m : Filling} (hm : m ∈ made) := hprogress.slot_mem_reserved hb hm
  have hunique : ∀ m ∈ made, ∀ m' ∈ made, address m.slot = address m'.slot → m = m' :=
    fun m hm m' hm' heq =>
      hprogress.eq_of_slot_eq hm hm' (hfresh.unique _ (hslot hm) _ (hslot hm') heq)
  have hreserved : ∀ r ∈ p.reserved b, ∀ m ∈ made, address r ≠ address m.slot := by
    intro r hr m hm heq
    obtain rfl := hfresh.unique r (hprogress.mem_reserved hr) _ (hslot hm) heq
    -- a slot is a new value
    obtain ⟨i, -, inst, hinst, -, hresult⟩ := Program.mem_reserved.1 hr
    obtain ⟨value, hvalue, -⟩ := hp.value_of_result hinst hresult
    have hlt := Program.index_lt_of_value? hvalue
    have hnew := (hprogress.filling m hm).content_new
    have hindex : m.slot.index = m.content.index + 1 := rfl
    omega
  have hword : ∀ i ∈ p.loadsOf function, ∀ r, Asks oracle p {} ⟨function.name, i⟩ r →
      ∀ m ∈ made, r.name = m.request.name →
        m.inst.result.map final.env = (p.result? i).map final.env := by
    intro i hi r hr m hm hname
    have hmade := hprogress.filling m hm
    have hload := (mem_jobsOf.1 (hprogress.mem_done hm)).2
    have hasks := hmade.asks
    rw [job_eq_of_mem (hprogress.mem_done hm) rfl] at hasks
    obtain ⟨hstorage, hversion⟩ := hnames i hi _ hload r _ hr hasks hname
    have hresult : p.result? m.job.load = m.inst.result := by
      rw [Program.result?, hmade.inst, Option.bind_some]
    rw [← hresult]
    refine hsound _ (hprogress.load_mem hb hm) i (Program.mem_instsOf_of_mem_loadsOf hb hi)
      (Program.isLoad_of_mem_loadsOf hload) (Program.isLoad_of_mem_loadsOf hi) r.storage hr.memory
      ?_ ?_ ?_
    · exact Program.source?_eq_some_iff.2 (hstorage ▸ hasks.reads)
    · exact Program.source?_eq_some_iff.2 hr.reads
    · rw [hasks.version, hr.version, hversion]
  have hstart : Agrees p made address final [] σ σ :=
    ⟨fun _ _ => rfl, fun _ _ => rfl, fun _ _ hdone => absurd hdone List.not_mem_nil⟩
  have hhidden : Hidden made address σ :=
    ⟨fun m hm => hfresh.env _ (hslot hm), fun m hm => hfresh.mem _ (hslot hm)⟩
  rw [hprogress.instsOf_eq]
  exact Agrees.run hp hresults hf hb hstraight hprogress hunique hreserved hword
    (List.nil_append _).symm hstart hhidden hfinal

end Simulation

end Machines

end Versioning

namespace Workspace

open Versioning

variable {oracle : Oracle} {w : Workspace} {f : FunctionId} {function : Function} {b : BlockId}

/-- **Versioning keeps the meaning of straight-line code.**  If the oracle knows the versions of all
loads, and different versions or storages have slots of different names, then versioning succeeds.
Whatever machine the block starts from, all loads then have the words that they had without
versioning, and so has the memory outside the slots, if the oracle is sound on this run. -/
theorem versionFunction_preserves (hp : w.program.Assembled) (hempty : w.context.slots = {})
    (hf : w.program.function? f = some function) (hb : function.blocks = [b])
    (hstraight : w.program.isStraight b = true)
    (hversions : ∀ i ∈ w.program.loadsOf function, ∃ k, (oracle i).version? = some k)
    (hnames : ∀ i ∈ w.program.loadsOf function, ∀ j ∈ w.program.loadsOf function, ∀ r r',
      Asks oracle w.program {} ⟨function.name, i⟩ r →
      Asks oracle w.program {} ⟨function.name, j⟩ r' → r.name = r'.name →
      r.storage = r'.storage ∧ r.version = r'.version) :
    ∃ n later, (versionFunction oracle f).outcome w = (.ok n, later) ∧
      ∀ {W : Type} [DecidableEq W] (address : ValueId → W) (σ before after : Machine W),
        σ.Fresh address (later.program.reserved b) →
        before = σ.runInsts address w.program (w.program.instsOf b) →
        after = σ.runInsts address later.program (later.program.instsOf b) →
        Sound oracle w.program b before →
        (∀ i ∈ w.program.loadsOf function, ∀ r, w.program.result? i = some r →
          after.env r = before.env r) ∧
        ∀ a, (∀ slot, later.context.slots.isSlot slot = true → a ≠ address slot) →
          after.mem a = before.mem a := by
  have hcoherent := hp.coherent
  have hjobs : ∀ job ∈ jobsOf w.program function, (∃ k, (oracle job.load).version? = some k) ∧
      ∃ inst, w.program.inst? job.load = some inst ∧ inst.type ≠ .void ∧
        ∀ v, inst.operands.head? = some (.value v) → ∃ value, w.program.value? v = some value := by
    intro job hjob
    have hload := (mem_jobsOf.1 hjob).2
    obtain ⟨inst, hinst, hkind, hvalues⟩ := Program.exists_of_isStraight hstraight
      (Program.mem_instsOf_of_mem_loadsOf hb hload)
    have hopcode := Program.opcode_of_mem_loadsOf hload hinst
    exact ⟨hversions _ hload, inst, hinst, Inst.type_of_isStraight hkind hopcode,
      fun v hv => hvalues v (List.mem_of_head? hv)⟩
  obtain ⟨n, state, hrun⟩ :=
    exists_run hcoherent (jobsAt_eq hf ▸ jobsAt_nodup hcoherent f) hjobs
  have hversion := versionFunction_ok_iff.2 ⟨function, state, hf, hrun, rfl⟩
  obtain ⟨made, hprogress⟩ := progress_of_versionFunction hcoherent hf hversion
  rw [hempty] at hprogress
  refine ⟨n, _, hversion, fun {W} _ address σ before after hfresh hbefore hafter hsound => ?_⟩
  have hagrees := agrees_of_sound hcoherent hp.hasResults hf hb hstraight hprogress hfresh hnames
    hbefore hsound
  refine ⟨fun i hi r hr => ?_, fun a ha => ?_⟩
  · obtain ⟨inst, hinst, hresult⟩ := Option.bind_eq_some_iff.1 hr
    obtain ⟨value, hvalue, -⟩ := hcoherent.value_of_result hinst hresult
    rw [hafter]
    exact hagrees.env r (Program.index_lt_of_value? hvalue)
  · rw [hafter]
    refine hagrees.mem a fun m hm => ha m.slot ?_
    exact (hprogress.isSlot m.slot).2 (.inr ⟨m, hm, rfl⟩)

/-- A function that stores a pointer, loads it, writes through it, and loads it again before and
after it is overwritten. -/
def pointers : Program := .ofEdits "pointers"
  [.global "g" (.int 64),
    .function "main" .void [],
    .block ⟨0⟩ "entry",
    .last ⟨0⟩ { opcode := .alloca, type := .pointer (.int 64), name := "x" },
    .last ⟨0⟩ { opcode := .store, operands := [.value ⟨0⟩, .value ⟨2⟩] },
    .last ⟨0⟩ { opcode := .load, operands := [.value ⟨2⟩], type := .int 64 },
    .last ⟨0⟩ { opcode := .load, operands := [.value ⟨3⟩], type := .int 64 },
    .last ⟨0⟩ { opcode := .store, operands := [.value ⟨4⟩, .value ⟨3⟩] },
    .last ⟨0⟩ { opcode := .load, operands := [.value ⟨2⟩], type := .int 64 },
    .last ⟨0⟩ { opcode := .store, operands := [.value ⟨4⟩, .value ⟨2⟩] },
    .last ⟨0⟩ { opcode := .load, operands := [.value ⟨2⟩], type := .int 64 }]

/-- The function. -/
def pointersMain : Function :=
  { name := "main", value := ⟨1⟩, params := [], blocks := [⟨0⟩], file := none }

/-- The last load reads what the last store has written. -/
def pointersOracle : Oracle := fun i => .definition (if i = ⟨7⟩ then 1 else 0)

/-- What versioning makes of it. -/
def pointersLater : Workspace :=
  ((versionFunction pointersOracle ⟨0⟩).outcome { program := pointers }).2

theorem outcome_pointers :
    (versionFunction pointersOracle ⟨0⟩).outcome { program := pointers } =
      (.ok 3, pointersLater) := by
  unfold pointersLater
  exact Pass.outcome_eq_of_fst (by decide +kernel)

/-- The loads that are versioned read `x`. -/
theorem storage_of_asks_pointers {i : InstId} {r : Request}
    (hi : i ∈ pointers.loadsOf pointersMain) (hr : Asks pointersOracle pointers {} ⟨"main", i⟩ r) :
    r.storage = ⟨2⟩ := by
  have hreads : pointers.source? i = some r.storage := Program.source?_eq_some_iff.2 hr.reads
  have hsource : ∀ j ∈ pointers.loadsOf pointersMain,
      pointers.source? j = some ⟨2⟩ ∨ pointers.source? j = some ⟨3⟩ := by decide +kernel
  rcases hsource i hi with h | h
  · exact Option.some.inj (hreads.symm.trans h)
  · -- the other load reads what was loaded, which is no storage
    have hmemory := hr.memory
    rw [Option.some.inj (hreads.symm.trans h)] at hmemory
    obtain ⟨value, hvalue, hmemory⟩ := hmemory
    have hnone : (pointers.value? ⟨3⟩).map pointers.isMemory = some (.ok false) := by decide +kernel
    rw [hvalue, Option.map_some, hmemory] at hnone
    cases hnone

/-- Where the memory is that is reserved. -/
def pointersAddress (v : ValueId) : Nat := 1000 + v.index

/-- A machine that does not know these addresses. -/
def pointersStart : Machine Nat where
  env v := v.index % 1000
  mem a := (a + 7) % 1000

/-- The machine after the block, before versioning and after it. -/
def pointersEnd (p : Program) : Machine Nat :=
  pointersStart.runInsts pointersAddress p (p.instsOf ⟨0⟩)

theorem versionFunction_preserves_pointers :
    pointersStart.Fresh pointersAddress (pointersLater.program.reserved ⟨0⟩) ∧
      Sound pointersOracle pointers ⟨0⟩ (pointersEnd pointers) ∧
      (∀ i ∈ pointers.loadsOf pointersMain, ∀ r, pointers.result? i = some r →
        (pointersEnd pointersLater.program).env r = (pointersEnd pointers).env r) ∧
      ∀ a, (∀ slot, pointersLater.context.slots.isSlot slot = true → a ≠ pointersAddress slot) →
        (pointersEnd pointersLater.program).mem a = (pointersEnd pointers).mem a := by
  have hfresh : pointersStart.Fresh pointersAddress (pointersLater.program.reserved ⟨0⟩) := by
    refine ⟨fun v _ v' _ h => ?_, fun v _ u => ?_, fun v _ a => ?_⟩
    · rw [ValueId.eq_iff]
      exact Nat.add_left_cancel h
    · exact Nat.ne_of_lt (Nat.lt_add_right _ (Nat.mod_lt _ (by decide)))
    · exact Nat.ne_of_lt (Nat.lt_add_right _ (Nat.mod_lt _ (by decide)))
  have hsound : Sound pointersOracle pointers ⟨0⟩ (pointersEnd pointers) := by
    have hwords : ∀ i ∈ pointers.instsOf ⟨0⟩, ∀ j ∈ pointers.instsOf ⟨0⟩,
        pointers.isLoad i = true → pointers.isLoad j = true →
        pointers.source? i = pointers.source? j →
        (pointersOracle i).version? = (pointersOracle j).version? →
        (pointers.result? i).map (pointersEnd pointers).env =
          (pointers.result? j).map (pointersEnd pointers).env := by decide +kernel
    exact fun i hi j hj hload hload' storage _ h h' =>
      hwords i hi j hj hload hload' (h.trans h'.symm)
  have hnames : ∀ i ∈ pointers.loadsOf pointersMain, ∀ j ∈ pointers.loadsOf pointersMain, ∀ r r',
      Asks pointersOracle pointers {} ⟨"main", i⟩ r →
      Asks pointersOracle pointers {} ⟨"main", j⟩ r' → r.name = r'.name →
      r.storage = r'.storage ∧ r.version = r'.version := by
    intro i hi j hj r r' hr hr' hname
    obtain ⟨label, -, h⟩ := hr.name
    obtain ⟨label', -, h'⟩ := hr'.name
    rw [h, h', slotName_eq_iff] at hname
    exact ⟨(storage_of_asks_pointers hi hr).trans (storage_of_asks_pointers hj hr').symm, hname.1⟩
  obtain ⟨n, later, houtcome, hkept⟩ := versionFunction_preserves (w := { program := pointers })
    (f := ⟨0⟩) (b := ⟨0⟩) (Program.assembled_ofEdits _ _) rfl (by decide +kernel) rfl
    (by decide +kernel) (fun _ _ => ⟨_, rfl⟩) hnames
  cases houtcome.symm.trans outcome_pointers
  exact ⟨hfresh, hsound, hkept pointersAddress pointersStart _ _ hfresh rfl rfl hsound⟩

end Workspace

end LevelIr
