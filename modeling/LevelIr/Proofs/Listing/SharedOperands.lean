import LevelIr.Proofs.Listing.Reads
import LevelIr.Proofs.Requests
import LevelIr.Proofs.Statement.Uses

/-!
# Shared operands over many requests

The operand of a parameter is classified once and then shared, however many requests a context
serves.  While the parameters get their names, the operands that are shared already stay as they
are.  A listing names every parameter before it shares its operand, so what it shares is what the
parameter is classified as from then on.

The operand of a parameter can also be asked for directly.  If that comes first, and the parameter
has no name of its own, then an operand of an unsupported kind is shared, and later listings refer
to it although they would not share it themselves.

* `Workspace.KeptByParts.exists_of_mem` : every statement of a listing was made at some moment.
* `Session.Request.Early` : the operand of a parameter was asked for before it had a name.
* `Shared.Faithful` : what is known of shared operands, along all requests.
* `Workspace.operand_eq_iff_of_transcribe` : which operands of a listing are out of date.
* `Workspace.transcribe_premature` : a listing with an operand of an unsupported kind.
-/

namespace LevelIr

open Session (Request)

/-! ### Moments of a listing -/

theorem Listing.statements_addBody (l : Listing) (f : FunctionId) (body : Body) :
    (l.addBody f body).statements = l.statements ++ body.statements := by
  have hparts (parts : List (Place × List Statement)) (l : Listing) :
      (l.addParts parts).statements = l.statements ++ parts.flatMap Prod.snd := by
    induction parts generalizing l with
    | nil => exact (List.append_nil _).symm
    | cons part parts ih =>
      have hstep : l.addParts (part :: parts) =
          ((l.addBlock part.1).pushAll part.1 part.2).addParts parts := rfl
      have hadd : (l.addBlock part.1).statements = l.statements := by
        simp only [statements, entries_addBlock]
      rw [hstep, ih, statements_pushAll, hadd, List.flatMap_cons, List.append_assoc]
  rw [addBody_eq]
  refine (hparts (body.parts f) l).trans ?_
  rw [Body.parts, List.flatMap_map]
  rfl

namespace Workspace

section Moments

variable {R : Workspace → Workspace → Prop} [IsPreorder Workspace R]

/-- The statement was made from an instruction at a moment between the two workspaces. -/
def MadeBetween (R : Workspace → Workspace → Prop) (w later : Workspace) (s : Statement) : Prop :=
  ∃ i ss u v, s ∈ ss ∧ R w u ∧ (transcribeInst i).outcome u = (.ok ss, v) ∧ R v later

theorem MadeBetween.mono {w w' later later' : Workspace} {s : Statement}
    (h : MadeBetween R w later s) (hw : R w' w) (hlater : R later later') :
    MadeBetween R w' later' s := by
  obtain ⟨i, ss, u, v, hs, hu, hinst, hv⟩ := h
  exact ⟨i, ss, u, v, hs, trans_of R hw hu, hinst, trans_of R hv hlater⟩

namespace KeptByParts

variable (h : KeptByParts R) {w later : Workspace} {s : Statement}

include h

theorem madeBetween_of_mem_block {b : BlockId} {part : BlockId × List Statement}
    (hpart : (Workspace.transcribeBlock b).outcome w = (.ok part, later)) (hs : s ∈ part.2) :
    MadeBetween R w later s := by
  obtain ⟨_, _, hget, hpart⟩ := Pass.outcome_bind_ok.1 hpart
  cases hget
  obtain ⟨block, _, hblock, hpart⟩ := Pass.outcome_bind_ok.1 hpart
  obtain ⟨-, rfl⟩ := Pass.outcome_lift_ok.1 hblock
  obtain ⟨lists, _, hlists, hpart⟩ := Pass.outcome_bind_ok.1 hpart
  cases hpart
  obtain ⟨ss, hss, hs⟩ := List.mem_flatten.1 hs
  obtain ⟨i, -, u, v, hu, hinst, hv⟩ := Pass.outcome_mapM_mem h.transcribeInst hlists hss
  exact ⟨i, ss, u, v, hs, hu, hinst, hv⟩

theorem madeBetween_of_mem_body {discard : Bool} {body : Body} {f : FunctionId}
    (hbody : (Workspace.transcribeBody discard f).outcome w = (.ok body, later))
    (hs : s ∈ body.statements) : MadeBetween R w later s := by
  obtain ⟨_, _, hget, hbody⟩ := Pass.outcome_bind_ok.1 hbody
  cases hget
  obtain ⟨function, _, hfunction, hbody⟩ := Pass.outcome_bind_ok.1 hbody
  obtain ⟨-, rfl⟩ := Pass.outcome_lift_ok.1 hfunction
  obtain ⟨found, w₁, hfound, hbody⟩ := Pass.outcome_bind_ok.1 hbody
  obtain ⟨_, w₂, hreport, hbody⟩ := Pass.outcome_bind_ok.1 hbody
  cases hbody
  obtain ⟨part, hpart, hs⟩ := List.mem_flatMap.1 hs
  obtain ⟨all, hall, hsub, -⟩ := Body.exists_of_mem_listed hpart
  obtain ⟨b, -, u, v, hu, hblock, hv⟩ := Pass.outcome_mapM_mem h.transcribeBlock hfound hall
  have hlater : R w₁ later := (h.report _).of_outcome hreport
  exact (h.madeBetween_of_mem_block hblock (hsub.subset hs)).mono hu (trans_of R hv hlater)

theorem madeBetween_of_mem_function {discard : Bool} {l l' : Listing} {f : FunctionId}
    (hl' : (Workspace.transcribeFunction discard l f).outcome w = (.ok l', later))
    (hs : s ∈ l'.statements) : s ∈ l.statements ∨ MadeBetween R w later s := by
  obtain ⟨body, _, hbody, hl'⟩ := Pass.outcome_bind_ok.1 hl'
  cases hl'
  rw [Listing.statements_addBody] at hs
  exact (List.mem_append.1 hs).imp id (h.madeBetween_of_mem_body hbody)

/-- **Every statement of a listing was made from an instruction at some moment** between the start
and the end of the listing. -/
theorem exists_of_mem {discard : Bool} {l : Listing}
    (hl : (Workspace.transcribe discard).outcome w = (.ok l, later)) (hs : s ∈ l.statements) :
    MadeBetween R w later s := by
  have hfunctions (functions : List FunctionId) {l l' : Listing} {w later : Workspace}
      (hl' : (functions.foldlM (Workspace.transcribeFunction discard) l).outcome w =
        (.ok l', later)) (hs : s ∈ l'.statements) :
      s ∈ l.statements ∨ MadeBetween R w later s := by
    induction functions generalizing l w with
    | nil =>
      cases hl'
      exact .inl hs
    | cons f functions ih =>
      rw [List.foldlM_cons] at hl'
      obtain ⟨l₁, w₁, hl₁, hrest⟩ := Pass.outcome_bind_ok.1 hl'
      have hw₁ : R w w₁ := (h.transcribeFunction discard l f).of_outcome hl₁
      have hlater : R w₁ later :=
        (Pass.keeps_foldlM (h.transcribeFunction discard) functions l₁).of_outcome hrest
      rcases ih hrest with hs₁ | hmade
      · exact (h.madeBetween_of_mem_function hl₁ hs₁).imp id fun hmade =>
          hmade.mono (refl_of R w) hlater
      · exact .inr (hmade.mono hw₁ (refl_of R later))
  obtain ⟨_, _, hget, hl⟩ := Pass.outcome_bind_ok.1 hl
  cases hget
  obtain ⟨l₁, w₁, hl₁, hl⟩ := Pass.outcome_bind_ok.1 hl
  obtain ⟨_, w₂, hreport, hl⟩ := Pass.outcome_bind_ok.1 hl
  cases hl
  rcases hfunctions _ hl₁ hs with hs | hmade
  · cases hs
  · exact hmade.mono (refl_of R w) ((h.report _).of_outcome hreport)

end KeptByParts

end Moments

end Workspace

/-! ### Operands of parameters -/

namespace Operand

variable {p q r : Program} {v : ValueId} {operand : Operand}

/-- A parameter is classified by its type and by whether it has a name. -/
theorem ofValue_of_argument {value : Value} {f : FunctionId} {k : Nat}
    (hvalue : p.value? v = some value) (horigin : value.origin = .argument f k) :
    ofValue p v = .ok {
      value := some v
      kind := if value.isNamed then .named else .unsupported
      memory := false
      pointer := value.type.isSourcePointer
      named := value.isNamed
      formal := true
      address := none
      version := none } := by
  have hoperator : p.operator? value = .ok none := by rw [Program.operator?, horigin]
  have hkind : Kind.ofValue value none = if value.isNamed then .named else .unsupported := by
    rw [Kind.ofValue, horigin]
    rfl
  have haddress (kind : Kind) : address? p v kind none = .ok none := by
    unfold address?
    split
    · rename_i heq
      cases heq
    · rfl
  have hmemory : p.isMemory value = .ok false := by rw [Program.isMemory, horigin]
  unfold ofValue
  refine Pass.bind_eq_ok.2 ⟨value, (Program.value_eq_ok_iff p).2 hvalue, Pass.bind_eq_ok.2
    ⟨none, hoperator, Pass.bind_eq_ok.2 ⟨none, haddress _, Pass.bind_eq_ok.2
    ⟨false, hmemory, ?_⟩⟩⟩⟩
  rw [hkind, horigin]
  rfl

/-- A parameter can always be classified. -/
theorem exists_ofValue_of_isParameter (h : p.isParameter v = true) :
    ∃ operand, ofValue p v = .ok operand := by
  obtain ⟨value, f, k, hvalue, horigin⟩ := Program.exists_of_isParameter h
  exact ⟨_, ofValue_of_argument hvalue horigin⟩

/-- The operand of a parameter is unsupported just if the parameter has no name. -/
theorem kind_eq_unsupported_iff (h : p.isParameter v = true) (hof : ofValue p v = .ok operand) :
    operand.kind = .unsupported ↔ p.isNamed v = false := by
  obtain ⟨value, f, k, hvalue, horigin⟩ := Program.exists_of_isParameter h
  rw [ofValue_of_argument hvalue horigin] at hof
  cases hof
  rw [Program.isNamed, hvalue, Option.any_some]
  cases value.isNamed <;> simp

theorem subscripts_eq_nil (h : p.isParameter v = true) (hof : ofValue p v = .ok operand) :
    operand.subscripts = [] := by
  obtain ⟨value, f, k, hvalue, horigin⟩ := Program.exists_of_isParameter h
  rw [ofValue_of_argument hvalue horigin] at hof
  cases hof
  rfl

/-- The operand of the value `v` in a statement that was made when the program was `q`.  That of a
parameter is what it was classified as: in the program `p` if it was shared too early, and in `q`
otherwise. -/
inductive Seen (p q : Program) (early : ValueId → Prop) (v : ValueId) (operand : Operand) :
    Prop where
  | early (h : early v) (hof : ofValue p v = .ok operand)
  | parameter (hparam : p.isParameter v = true) (h : ¬early v) (hnamed : q.isNamed v = true)
      (hof : ofValue q v = .ok operand)
  | other (hparam : p.isParameter v = false) (hvalue : operand.value = some v)
      (hkind : operand.kind ≠ .unsupported)
      (hsubscripts : ∀ s ∈ operand.subscripts, subscript q v s.value = .ok s)

variable {early : ValueId → Prop}

theorem Seen.value (h : Seen p q early v operand) : operand.value = some v := by
  cases h with
  | early _ hof => exact value_ofValue hof
  | parameter _ _ _ hof => exact value_ofValue hof
  | other _ hvalue => exact hvalue

theorem Seen.of_namesMore (h : Seen p q early v operand) (hqr : q.NamesMore r) :
    Seen p r early v operand := by
  cases h with
  | early h hof => exact .early h hof
  | parameter hparam h hnamed hof =>
    exact .parameter hparam h (hqr.named v hnamed) (ofValue_of_namesMore hqr (fun _ => hnamed) hof)
  | other hparam hvalue hkind hsubscripts =>
    exact .other hparam hvalue hkind fun s hs => subscript_of_namesMore hqr (hsubscripts s hs)

/-- A subscript that is a parameter is as the parameter is classified. -/
theorem ofValue_of_subscript {address : ValueId} {s : Subscript}
    (h : subscript p address s.value = .ok s) (hparam : p.isParameter s.value = true) :
    ofValue p s.value = .ok (.ofSubscript s) := by
  obtain ⟨value, f, k, hvalue, horigin⟩ := Program.exists_of_isParameter hparam
  unfold subscript at h
  obtain ⟨value', hvalue', h⟩ := Pass.bind_eq_ok.1 h
  rw [Program.value_eq_ok_iff, hvalue] at hvalue'
  cases hvalue'
  split at h
  · rename_i hfits
    -- a parameter is no integer constant, so it has a name
    have hnamed : value.isNamed = true := by
      simpa [horigin, Origin.isInteger, Origin.isConstant] using hfits
    rw [Program.isMemory, horigin] at h
    obtain ⟨memory, hmemory, h⟩ := Pass.bind_eq_ok.1 h
    cases hmemory
    rw [ofValue_of_argument hvalue horigin, ← Except.ok.inj h, ofSubscript, hnamed]
    rfl
  · cases h

theorem mem_of_mapM_subscript {address : ValueId} {indices : List ValueId} {ss : List Subscript}
    (h : indices.mapM (subscript p address) = .ok ss) :
    ∀ s ∈ ss, subscript p address s.value = .ok s := by
  intro s hs
  obtain ⟨index, -, hindex⟩ := (Pass.mapM_eq_ok h).2 s hs
  rwa [value_of_subscript hindex]

theorem mem_of_address? {kind : Kind} {operator : Option (Operator × List ValueId)}
    {address : Option ElementAddress} (h : address? p v kind operator = .ok address) :
    ∀ s ∈ (address.map ElementAddress.subscripts).getD [], subscript p v s.value = .ok s := by
  unfold address? at h
  split at h
  · rename_i name operands
    cases operands with
    | nil => cases h
    | cons base indices =>
      cases hss : indices.mapM (subscript p v) with
      | error fault =>
        rw [elementAddress, hss] at h
        cases h
      | ok ss =>
        rw [elementAddress, hss] at h
        cases h
        exact mem_of_mapM_subscript hss
  · cases h
    exact fun s hs => by cases hs

/-- The subscripts of an operand are those that are found in the program. -/
theorem subscripts_of_ofValue (h : ofValue p v = .ok operand) :
    ∀ s ∈ operand.subscripts, subscript p v s.value = .ok s := by
  unfold ofValue at h
  obtain ⟨value, -, h⟩ := Pass.bind_eq_ok.1 h
  obtain ⟨operator, -, h⟩ := Pass.bind_eq_ok.1 h
  obtain ⟨address, haddress, h⟩ := Pass.bind_eq_ok.1 h
  obtain ⟨memory, -, h⟩ := Pass.bind_eq_ok.1 h
  cases h
  exact mem_of_address? haddress

theorem kind_of_supported (h : supported p v = .ok operand) : operand.kind ≠ .unsupported := by
  unfold supported at h
  obtain ⟨value, -, h⟩ := Pass.bind_eq_ok.1 h
  obtain ⟨found, hfound, h⟩ := Pass.bind_eq_ok.1 h
  split at h
  · cases h
  · rename_i hkind
    cases h
    exact hkind

end Operand

/-! ### What is shared -/

namespace Shared

variable {p q r : Program} {early : ValueId → Prop} {shared : Shared} {v : ValueId}
  {operand : Operand}

/-- The operands that parameters share when the program is `q`: those that were shared too early are
as in the program `p`, and the others belong to parameters that have names, and are up to date. -/
structure Faithful (p q : Program) (early : ValueId → Prop) (shared : Shared) : Prop where
  old : ∀ v, early v → ∃ operand, shared.get? v = some operand ∧ Operand.ofValue p v = .ok operand
  others : ∀ v operand, p.isParameter v = true → ¬early v → shared.get? v = some operand →
    q.isNamed v = true ∧ Operand.ofValue q v = .ok operand

theorem Faithful.of_namesMore (h : shared.Faithful p q early) (hqr : q.NamesMore r) :
    shared.Faithful p r early where
  old := h.old
  others v operand hparam hv hget := by
    obtain ⟨hnamed, hof⟩ := h.others v operand hparam hv hget
    exact ⟨hqr.named v hnamed, Operand.ofValue_of_namesMore hqr (fun _ => hnamed) hof⟩

/-- The operand that a parameter shares. -/
theorem Faithful.seen (h : shared.Faithful p q early) (hparam : p.isParameter v = true)
    (hget : shared.get? v = some operand) : operand.Seen p q early v := by
  by_cases hv : early v
  · obtain ⟨operand', hget', hof⟩ := h.old v hv
    rw [hget] at hget'
    cases hget'
    exact .early hv hof
  · obtain ⟨hnamed, hof⟩ := h.others v operand hparam hv hget
    exact .parameter hparam hv hnamed hof

/-- A value that shares no operand yet may share one if that is up to date. -/
theorem Faithful.shareOnce (h : shared.Faithful p q early) {found : Except Fault Operand}
    (hfound : ∀ operand, found = .ok operand → p.isParameter v = true → ¬early v →
      q.isNamed v = true ∧ Operand.ofValue q v = .ok operand) :
    ((Shared.shareOnce v found).outcome shared).2.Faithful p q early := by
  cases hget : shared.get? v with
  | some operand =>
    rw [shareOnce_of_some hget]
    exact h
  | none =>
    rw [shareOnce_of_none hget]
    cases found with
    | error fault => exact h
    | ok operand =>
      have hlate : ¬early v := by
        intro hv
        obtain ⟨operand', hget', -⟩ := h.old v hv
        rw [hget] at hget'
        cases hget'
      refine ⟨fun u hu => ?_, fun u other hparam hu hother => ?_⟩
      · obtain ⟨other, hother, hof⟩ := h.old u hu
        refine ⟨other, ?_, hof⟩
        rw [Table.get?_insert, if_neg, hother]
        rintro rfl
        exact hlate hu
      · rw [Table.get?_insert] at hother
        split at hother
        · rename_i heq
          cases hother
          exact heq ▸ hfound operand rfl (heq ▸ hparam) (heq ▸ hu)
        · exact h.others u other hparam hu hother

/-- Sharing more operands leaves them faithful. -/
def StaysFaithful (p q : Program) (early : ValueId → Prop) (shared later : Shared) : Prop :=
  shared.Faithful p q early → later.Faithful p q early

instance (p q : Program) (early : ValueId → Prop) :
    IsPreorder Shared (StaysFaithful p q early) where
  refl _ := id
  trans _ _ _ hab hbc := hbc ∘ hab

end Shared

namespace Operand

variable {p q : Program} {early : ValueId → Prop}

theorem isNamed_of_supported {v : ValueId} {operand : Operand} (hparam : q.isParameter v = true)
    (h : supported q v = .ok operand) : q.isNamed v = true := by
  have hkind := kind_eq_unsupported_iff hparam (ofValue_of_supported h)
  by_contra hunnamed
  exact kind_of_supported h (hkind.2 (Bool.eq_false_iff.2 hunnamed))

/-- What a statement shares is faithful: it does not share an operand of an unsupported kind. -/
theorem keeps_resolve_faithful (hpq : q.nameless = p.nameless) (slots : Slots) (v : ValueId) :
    Pass.Keeps (Shared.StaysFaithful p q early) (resolve q slots v) := by
  refine (Pass.keeps_lift _).bind fun value => ?_
  split
  · refine fun shared h => h.shareOnce fun operand hsupported hparam _ => ?_
    rw [← Program.isParameter_of_nameless hpq] at hparam
    exact ⟨isNamed_of_supported hparam hsupported, ofValue_of_supported hsupported⟩
  · exact (Pass.keeps_lift _).bind fun _ => Pass.keeps_pure _

/-- The operand of a value in a statement, if the shared operands are faithful. -/
theorem yields_resolve_seen (hpq : q.nameless = p.nameless) (slots : Slots) (v : ValueId) :
    Pass.Yields (Shared.Faithful p q early) (Seen p q early v) (resolve q slots v) := by
  intro shared operand later hshared h
  have hlater := (keeps_resolve_faithful hpq slots v).of_outcome h hshared
  refine ⟨?_, hlater⟩
  obtain ⟨value, _, hlift, h⟩ := Pass.outcome_bind_ok.1 h
  obtain ⟨hvalue, rfl⟩ := Pass.outcome_lift_ok.1 hlift
  rw [Program.value_eq_ok_iff] at hvalue
  have hparam : p.isParameter v = value.origin.isArgument := by
    rw [← Program.isParameter_of_nameless hpq, Program.isParameter, hvalue]
    rfl
  split at h
  · rename_i hargument
    have h : (Shared.shareOnce v (supported q v)).outcome shared = (.ok operand, later) := h
    exact hlater.seen (hparam.trans hargument) (Shared.shareOnce_ok h).2
  · rename_i hargument
    obtain ⟨found, _, hlift, h⟩ := Pass.outcome_bind_ok.1 h
    obtain ⟨hfound, rfl⟩ := Pass.outcome_lift_ok.1 hlift
    cases h
    have hvalue := value_supported hfound
    have hkind := kind_of_supported hfound
    have hsubscripts := subscripts_of_ofValue (ofValue_of_supported hfound)
    exact .other (hparam.trans (Bool.eq_false_iff.2 hargument)) hvalue hkind hsubscripts

end Operand

/-! ### Steps -/

namespace Workspace

/-- What is known of a workspace in which some parameters share operands that they had in the
program `p`. -/
structure Coheres (p : Program) (early : ValueId → Prop) (w : Workspace) : Prop where
  names : p.NamesMore w.program
  renamed : ∀ v ∈ w.context.names.renamed, w.program.isNamed v = true
  shared : w.context.shared.Faithful p w.program early

/-- More registers have names, and what is known of the shared operands stays so. -/
structure Advances (p : Program) (early : ValueId → Prop) (w later : Workspace) : Prop where
  continues : Continues w later
  names : w.program.NamesMore later.program
  coheres : Coheres p early w → Coheres p early later

instance (p : Program) (early : ValueId → Prop) : IsPreorder Workspace (Advances p early) where
  refl w := ⟨refl_of Continues w, w.program.namesMore_refl, id⟩
  trans _ _ _ hab hbc := ⟨trans_of Continues hab.continues hbc.continues, hab.names.trans hbc.names,
    hbc.coheres ∘ hab.coheres⟩

section Steps

variable {p : Program} {early : ValueId → Prop} {w later : Workspace} {v : ValueId}

/-- A parameter that is settled has a name. -/
theorem Coheres.isNamed_of_settled (hw : Coheres p early w) (hparam : p.isParameter v = true)
    (hsettled : w.context.names.Settled w.program v) : w.program.isNamed v = true := by
  refine hw.renamed v (hsettled.resolve_right fun hopen => ?_)
  rw [← Program.isParameter_of_nameless hw.names.nameless] at hparam
  obtain ⟨value, f, k, hvalue, horigin⟩ := Program.exists_of_isParameter hparam
  have hother := (hopen value hvalue).1
  rw [horigin] at hother
  cases hother

/-- A register that is given a name. -/
theorem Coheres.setName (hw : Coheres p early w) {value : Value} {name : String} {names : Names}
    (hname : name ≠ "") (hvalue : w.program.value? v = some value)
    (hnames : w.program.NamesMore (w.program.setName v name))
    (hrenamed : names.renamed = v :: w.context.names.renamed) :
    Coheres p early { w with
      program := w.program.setName v name
      context := { w.context with names } } where
  names := hw.names.trans hnames
  renamed u hu := by
    simp only [hrenamed] at hu
    rcases List.mem_cons.1 hu with rfl | hu
    · exact (Program.isNamed_setName hname _).2 (.inr ⟨rfl, by rw [hvalue]; rfl⟩)
    · exact hnames.named u (hw.renamed u hu)
  shared := hw.shared.of_namesMore hnames

theorem advances_nameValue (v : ValueId) : Pass.Keeps (Advances p early) (nameValue v) := by
  intro w
  have hcontinues := keeps_nameValue v w
  rw [outcome_nameValue] at hcontinues ⊢
  cases hassign : w.context.names.assign w.program v with
  | error fault => exact refl_of (Advances p early) w
  | ok assigned =>
    obtain ⟨names, q⟩ := assigned
    rw [hassign] at hcontinues
    obtain ⟨value, hvalue, ⟨-, rfl, rfl⟩ | ⟨-, hregister, name, hname, hrenamed, rfl⟩⟩ :=
      Names.assign_cases hassign
    · exact refl_of (Advances p early) w
    · have hnames := Program.namesMore_setName hname hvalue hregister
      exact ⟨hcontinues, hnames, fun hw => hw.setName hname hvalue hnames hrenamed⟩

theorem advances_onShared {α : Type} {pass : Pass Shared α} (w : Workspace)
    (hgrows : Pass.Keeps Shared.Grows pass)
    (h : p.NamesMore w.program → w.context.shared.Faithful p w.program early →
      (pass.outcome w.context.shared).2.Faithful p w.program early) :
    Advances p early w ((onShared pass).outcome w).2 where
  continues := keeps_onShared hgrows w
  names := w.program.namesMore_refl
  coheres hw := ⟨hw.names, hw.renamed, h hw.names hw.shared⟩

theorem advances_toStatement (i : InstId) : Pass.Keeps (Advances p early) (toStatement i) := by
  intro w
  rw [outcome_toStatement]
  refine advances_onShared w (Statement.keeps_ofInst i) fun hnames hshared => ?_
  have hkeeps := Statement.ofInst_congr
    (Pass.Congruence.keeps (Shared.StaysFaithful p w.program early)) rfl i
    fun _ _ v _ => Operand.keeps_resolve_faithful hnames.nameless w.context.slots v
  exact hkeeps w.context.shared hshared

/-- A parameter that has a name shares an operand that is up to date. -/
theorem advances_sharedOperand (hnamed : Coheres p early w → p.isParameter v = true → ¬early v →
    w.program.isNamed v = true) : Advances p early w ((sharedOperand v).outcome w).2 := by
  have hcontinues := keeps_sharedOperand v w
  rw [outcome_sharedOperand, Shared.operand_eq_shareOnce] at hcontinues ⊢
  refine ⟨hcontinues, w.program.namesMore_refl, fun hw => ⟨hw.names, hw.renamed, ?_⟩⟩
  exact hw.shared.shareOnce fun operand hfound hparam hlate => ⟨hnamed hw hparam hlate, hfound⟩

/-- A parameter is named before it is handed an argument. -/
theorem advances_bindArgument (call : Statement) (formal : ValueId) (actual : Reference) :
    Pass.Keeps (Advances p early) (bindArgument call formal actual) := by
  refine (advances_nameValue formal).bind_ok fun w _ u hu => ?_
  have hshared : Advances p early u ((sharedOperand formal).outcome u).2 :=
    advances_sharedOperand fun hw hparam _ => hw.isNamed_of_settled hparam (nameValue_ok hu).2.1
  rw [Pass.outcome_bind]
  generalize (sharedOperand formal).outcome u = reached at hshared ⊢
  obtain ⟨answer, later⟩ := reached
  cases answer with
  | ok operand => exact hshared
  | error fault => exact hshared

theorem keptByParts_advances (p : Program) (early : ValueId → Prop) :
    KeptByParts (Advances p early) where
  report event w := ⟨keeps_report event w, w.program.namesMore_refl,
    fun hw => ⟨hw.names, hw.renamed, hw.shared⟩⟩
  nameValue := advances_nameValue
  toStatement := advances_toStatement
  bindArgument := advances_bindArgument

end Steps

end Workspace

/-! ### Requests that come too early -/

/-- The operand of the parameter `v` was asked for at a time when the parameter had no name. -/
def Session.Request.Early (session : Session) (requests : List Request) (v : ValueId) : Prop :=
  session.program.isParameter v = true ∧ ∃ front back, requests = front ++ .operand v :: back ∧
    (session.serve front).program.isNamed v = false

namespace Workspace

variable {session : Session}

theorem early_append_singleton {requests : List Request} {request : Request} {v : ValueId} :
    Request.Early session (requests ++ [request]) v ↔ Request.Early session requests v ∨
      (session.program.isParameter v = true ∧ request = .operand v ∧
        (session.serve requests).program.isNamed v = false) := by
  constructor
  · rintro ⟨hparam, front, back, heq, hunnamed⟩
    rcases List.eq_nil_or_concat back with rfl | ⟨back, last, rfl⟩
    · obtain ⟨rfl, hlast⟩ := List.append_inj' heq rfl
      exact .inr ⟨hparam, (List.cons.inj hlast).1, hunnamed⟩
    · rw [List.concat_eq_append, ← List.cons_append, ← List.append_assoc] at heq
      exact .inl ⟨hparam, front, back, (List.append_inj' heq rfl).1, hunnamed⟩
  · rintro (⟨hparam, front, back, rfl, hunnamed⟩ | ⟨hparam, rfl, hunnamed⟩)
    · exact ⟨hparam, front, back ++ [request], by simp, hunnamed⟩
    · exact ⟨hparam, requests, [], rfl, hunnamed⟩

/-- A parameter without a name shares its operand. -/
theorem Coheres.shareEarly {p : Program} {early : ValueId → Prop} {w : Workspace} {v : ValueId}
    (hw : Coheres p early w) (hparam : p.isParameter v = true) (hlate : ¬early v)
    (hunnamed : w.program.isNamed v = false) :
    Coheres p (fun u => early u ∨ u = v) ((sharedOperand v).outcome w).2 := by
  obtain ⟨operand, hof⟩ := Operand.exists_ofValue_of_isParameter hparam
  have hnow : Operand.ofValue w.program v = .ok operand :=
    Operand.ofValue_of_namesMore hw.names
      (fun hnamed => absurd (hnamed.symm.trans hunnamed) Bool.noConfusion) hof
  -- otherwise it would have a name
  have hnone : w.context.shared.get? v = none := by
    cases hget : w.context.shared.get? v with
    | none => rfl
    | some other =>
      have hnamed := (hw.shared.others v other hparam hlate hget).1
      rw [hunnamed] at hnamed
      cases hnamed
  rw [outcome_sharedOperand, Shared.operand_eq_shareOnce, outcome_onShared, hnow,
    Shared.shareOnce_of_none hnone]
  refine ⟨hw.names, hw.renamed, fun u hu => ?_, fun u other hparam' hu hother => ?_⟩
  · by_cases huv : u = v
    · exact ⟨operand, by rw [Table.get?_insert, if_pos huv], huv ▸ hof⟩
    · obtain ⟨other, hother, hof'⟩ := hw.shared.old u (hu.resolve_right huv)
      exact ⟨other, by rw [Table.get?_insert, if_neg huv, hother], hof'⟩
  · rw [not_or] at hu
    rw [Table.get?_insert, if_neg hu.2] at hother
    exact hw.shared.others u other hparam' hu.1 hother

/-- An operand is asked for.  That comes too early if the parameter has no name yet. -/
theorem Coheres.operand (session : Session) {requests : List Request}
    (hw : Coheres session.program (Request.Early session requests)
      (session.serve requests).workspace) (v : ValueId) :
    Coheres session.program (Request.Early session (requests ++ [.operand v]))
      ((sharedOperand v).outcome (session.serve requests).workspace).2 := by
  have hearly (u : ValueId) : Request.Early session (requests ++ [.operand v]) u ↔
      Request.Early session requests u ∨ (session.program.isParameter u = true ∧ v = u ∧
        (session.serve requests).program.isNamed u = false) := by
    rw [early_append_singleton, Request.operand.injEq]
  by_cases hnew : session.program.isParameter v = true ∧ ¬Request.Early session requests v ∧
      (session.serve requests).program.isNamed v = false
  · obtain ⟨hparam, hlate, hunnamed⟩ := hnew
    have hset : Request.Early session (requests ++ [.operand v]) =
        fun u => Request.Early session requests u ∨ u = v := by
      funext u
      rw [eq_iff_iff, hearly]
      refine or_congr_right ⟨fun h => h.2.1.symm, ?_⟩
      rintro rfl
      exact ⟨hparam, rfl, hunnamed⟩
    rw [hset]
    exact hw.shareEarly hparam hlate hunnamed
  · have hset : Request.Early session (requests ++ [.operand v]) =
        Request.Early session requests := by
      funext u
      rw [eq_iff_iff, hearly]
      refine or_iff_left_of_imp ?_
      rintro ⟨hparam, rfl, hunnamed⟩
      by_contra hlate
      exact hnew ⟨hparam, hlate, hunnamed⟩
    rw [hset]
    refine Advances.coheres (advances_sharedOperand fun _ hparam hlate => ?_) hw
    by_contra hunnamed
    exact hnew ⟨hparam, hlate, Bool.eq_false_iff.2 hunnamed⟩

theorem workspace_ask_operand (session : Session) (v : ValueId) :
    ((Session.ask (.operand v)).outcome session).2.workspace =
      ((sharedOperand v).outcome session.workspace).2 := by
  unfold Session.ask
  rw [Pass.outcome_bind, Session.onWorkspace, Pass.outcome_within]
  cases (sharedOperand v).outcome session.workspace with
  | mk answer w => cases answer <;> rfl

/-- Along all requests, parameters share what they were classified as when their operand was first
asked for. -/
theorem coheres_serve (p : Program) (listings : List Listing) (requests : List Request) :
    Coheres p (Request.Early (.fresh p listings) requests)
      ((Session.fresh p listings).serve requests).workspace := by
  induction requests using List.reverseRecOn with
  | nil =>
    have hnone (v : ValueId) : ¬Request.Early (.fresh p listings) [] v := by
      rintro ⟨-, front, back, heq, -⟩
      simp at heq
    exact
      { names := p.namesMore_refl
        renamed := fun v hv => by cases hv
        shared := ⟨fun v hv => absurd hv (hnone v), fun v operand _ _ hget => by cases hget⟩ }
  | append_singleton requests request ih =>
    rw [Session.serve_append]
    by_cases hoperand : ∃ v, request = .operand v
    · obtain ⟨v, rfl⟩ := hoperand
      have hlater := Coheres.operand (.fresh p listings) ih v
      rwa [← workspace_ask_operand] at hlater
    · rw [not_exists] at hoperand
      have hsame : Request.Early (.fresh p listings) (requests ++ [request]) =
          Request.Early (.fresh p listings) requests := by
        funext v
        rw [eq_iff_iff, early_append_singleton]
        exact or_iff_left fun h => hoperand v h.2.1
      rw [hsame]
      have hkept := keptByParts_advances p (Request.Early (.fresh p listings) requests)
      exact Advances.coheres (hkept.ask hoperand _) ih

end Workspace

/-! ### What a listing refers to -/

/-- All references of a statement. -/
def Statement.references (s : Statement) : List Reference := s.uses ++ s.result.toList

theorem Statement.mem_references_of_mem_operands (s : Statement) {r : Reference}
    (hr : r ∈ s.operands) : r ∈ s.references :=
  List.mem_append_left _ (List.mem_append_left _ (List.mem_append_left _ hr))

theorem Statement.Cites.of_mem_references {Q : ValueId → Operand → Prop} {inst : Inst}
    {s : Statement} (h : s.Cites Q inst) {r : Reference} (hr : r ∈ s.references) :
    r = .absent ∨ ∃ v ∈ inst.touched, Q v r.operand := by
  have huses (hr : r ∈ s.uses) : r = .absent ∨ ∃ v ∈ inst.touched, Q v r.operand :=
    (h.uses r hr).imp id fun ⟨v, hv, hQ⟩ => ⟨v, List.mem_append_left _ hv, hQ⟩
  rcases List.mem_append.1 hr with hr | hr
  · exact huses hr
  rw [Option.mem_toList] at hr
  cases hstore : s.isStore with
  | true =>
    -- the target of a store counts as used
    have htarget : s.target? = some r := by rw [target?, hstore]; exact hr
    exact huses (List.mem_append_left _ (List.mem_append_right _ (Option.mem_toList.2 htarget)))
  | false =>
    obtain ⟨v, hv, hQ⟩ := h.result hstore r hr
    exact .inr ⟨v, List.mem_append_right _ (Option.mem_toList.2 hv), hQ⟩

/-- The listing contains the reference, in one of its statements or as what a function returns. -/
def Listing.Contains (l : Listing) (r : Reference) : Prop :=
  (∃ s ∈ l.statements, r ∈ s.references) ∨ ∃ f, l.returned? f = some r

/-- What a statement that was made when the program was `q` refers to: the operand is as it was
seen, and a parameter has a name. -/
def Reference.Known (p q : Program) (early : ValueId → Prop) (r : Reference) : Prop :=
  r = .absent ∨ ∃ v, r.operand.Seen p q early v ∧ (p.isParameter v = true → q.isNamed v = true)

namespace Reference

variable {p q : Program} {early : ValueId → Prop} {r : Reference}

theorem Known.of_namesMore {q' : Program} (h : r.Known p q early) (hqq' : q.NamesMore q') :
    r.Known p q' early :=
  h.imp id fun ⟨v, hseen, hnamed⟩ =>
    ⟨v, hseen.of_namesMore hqq', fun hparam => hqq'.named v (hnamed hparam)⟩

/-- The operand of a value that the reference has. -/
theorem Known.seen (h : r.Known p q early) {v : ValueId} (hv : r.value = some v) :
    r.operand.Seen p q early v ∧ (p.isParameter v = true → q.isNamed v = true) := by
  rcases h with rfl | ⟨u, hseen, hnamed⟩
  · cases hv
  · obtain rfl : u = v := Option.some.inj (hseen.value.symm.trans hv)
    exact ⟨hseen, hnamed⟩

/-- A subscript is up to date. -/
theorem Known.ofValue_subscript (h : r.Known p q early) (hpq : q.nameless = p.nameless)
    (hearly : ∀ v, early v → p.isParameter v = true) {s : Subscript}
    (hs : s ∈ r.operand.subscripts) (hparam : p.isParameter s.value = true) :
    Operand.ofValue q s.value = .ok (.ofSubscript s) := by
  rw [← Program.isParameter_of_nameless hpq] at hparam
  rcases h with rfl | ⟨v, hseen, -⟩
  · cases hs
  cases hseen with
  | early h hof =>
    rw [Operand.subscripts_eq_nil (hearly v h) hof] at hs
    cases hs
  | parameter hv _ _ hof =>
    rw [← Program.isParameter_of_nameless hpq] at hv
    rw [Operand.subscripts_eq_nil hv hof] at hs
    cases hs
  | other _ _ _ hsubscripts => exact Operand.ofValue_of_subscript (hsubscripts s hs) hparam

/-- An operand of an unsupported kind was shared too early. -/
theorem Known.kind_eq_unsupported_iff (h : r.Known p q early) (hpq : q.nameless = p.nameless)
    (hearly : ∀ v, early v → p.isParameter v = true ∧ p.isNamed v = false) :
    r.operand.kind = .unsupported ↔ ∃ v, r.value = some v ∧ early v := by
  constructor
  · intro hkind
    rcases h with rfl | ⟨v, hseen, hnamed⟩
    · cases hkind
    refine ⟨v, hseen.value, ?_⟩
    cases hseen with
    | early h => exact h
    | parameter hparam _ hnamed hof =>
      rw [← Program.isParameter_of_nameless hpq] at hparam
      rw [(Operand.kind_eq_unsupported_iff hparam hof).1 hkind] at hnamed
      cases hnamed
    | other _ _ hkind' => exact absurd hkind hkind'
  · rintro ⟨v, hv, hold⟩
    obtain ⟨hparam, hunnamed⟩ := hearly v hold
    cases (h.seen hv).1 with
    | early _ hof => exact (Operand.kind_eq_unsupported_iff hparam hof).2 hunnamed
    | parameter _ hlate => exact absurd hold hlate
    | other hother => exact absurd (hparam.symm.trans hother) Bool.noConfusion

/-- The operand of a parameter is up to date just if it was not shared too early. -/
theorem Known.ofValue_eq_iff (h : r.Known p q early) (hpq : q.nameless = p.nameless)
    (hearly : ∀ v, early v → p.isParameter v = true ∧ p.isNamed v = false) {v : ValueId}
    (hv : r.value = some v) (hparam : p.isParameter v = true) :
    Operand.ofValue q v = .ok r.operand ↔ ¬early v := by
  obtain ⟨hseen, hnamed⟩ := h.seen hv
  constructor
  · intro hof hold
    -- the parameter has a name by now
    rw [← Program.isParameter_of_nameless hpq] at hparam
    have hkind := (h.kind_eq_unsupported_iff hpq hearly).2 ⟨v, hv, hold⟩
    have hunnamed := (Operand.kind_eq_unsupported_iff hparam hof).1 hkind
    rw [hnamed (hearly v hold).1] at hunnamed
    cases hunnamed
  · intro hlate
    cases hseen with
    | early hold => exact absurd hold hlate
    | parameter _ _ _ hof => exact hof
    | other hother => exact absurd (hparam.symm.trans hother) Bool.noConfusion

/-- What was shared too early is as it was at first. -/
theorem Known.ofValue_of_early (h : r.Known p q early)
    (hearly : ∀ v, early v → p.isParameter v = true) {v : ValueId} (hv : r.value = some v)
    (hold : early v) : Operand.ofValue p v = .ok r.operand := by
  cases (h.seen hv).1 with
  | early _ hof => exact hof
  | parameter _ hlate => exact absurd hold hlate
  | other hother => exact absurd ((hearly v hold).symm.trans hother) Bool.noConfusion

end Reference

namespace Workspace

section Known

variable {p : Program} {early : ValueId → Prop} {w later : Workspace}

theorem toStatement_known (hw : Coheres p early w) {i : InstId} {inst : Inst} {s : Statement}
    (hinst : w.program.inst? i = some inst)
    (hsettled : ∀ v ∈ inst.touched, w.context.names.Settled w.program v)
    (h : (toStatement i).outcome w = (.ok s, later)) :
    ∀ r ∈ s.references, r.Known p later.program early := by
  rw [outcome_toStatement, outcome_onShared] at h
  obtain ⟨hs, rfl⟩ := Prod.mk.inj h
  obtain ⟨⟨inst', hinst', hcites⟩, -⟩ := Statement.yields_ofInst
    (Operand.yields_resolve_seen hw.names.nameless w.context.slots) i hw.shared
    (Pass.outcome_eq_of_fst hs)
  obtain rfl : inst = inst' := Option.some.inj (hinst.symm.trans hinst')
  intro r hr
  refine (hcites.of_mem_references hr).imp id fun ⟨v, hv, hseen⟩ => ⟨v, hseen, fun hparam => ?_⟩
  exact hw.isNamed_of_settled hparam (hsettled v hv)

theorem bindArgument_known (hw : Coheres p early w) {call b : Statement} {formal : ValueId}
    {actual : Reference} (hformal : p.isParameter formal = true)
    (hactual : actual.Known p w.program early)
    (h : (bindArgument call formal actual).outcome w = (.ok b, later)) :
    ∀ r ∈ b.references, r.Known p later.program early := by
  have hlater : Advances p early w later :=
    (advances_bindArgument call formal actual).of_outcome h
  obtain ⟨_, w₁, hname, h⟩ := Pass.outcome_bind_ok.1 h
  obtain ⟨operand, w₂, hoperand, h⟩ := Pass.outcome_bind_ok.1 h
  cases h
  have hnamed : w₁.program.isNamed formal = true :=
    Coheres.isNamed_of_settled ((advances_nameValue formal).of_outcome hname |>.coheres hw) hformal
      (nameValue_ok hname).2.1
  rw [outcome_sharedOperand, Shared.operand_eq_shareOnce, outcome_onShared] at hoperand
  obtain ⟨hshare, rfl⟩ := Prod.mk.inj hoperand
  have hget := (Shared.shareOnce_ok (Pass.outcome_eq_of_fst hshare)).2
  have hseen := (hlater.coheres hw).shared.seen hformal hget
  intro r hr
  have hr : r = actual ∨ r = ⟨operand, 0⟩ := by
    simpa [Statement.references, Statement.uses, Statement.reads, Statement.target?,
      Statement.isStore, Statement.bindArgument, Statement.make, Statement.callee?,
      Action.callee?] using hr
  rcases hr with rfl | rfl
  · exact hactual.of_namesMore hlater.names
  · exact .inr ⟨formal, hseen, fun _ => hnamed⟩

theorem bindArguments_known (hw : Coheres p early w) {call : Statement} {bindings : List Statement}
    (hformals : ∀ f formals, call.action = .call (.direct f formals) →
      ∀ v ∈ formals, p.isParameter v = true)
    (hcall : ∀ r ∈ call.references, r.Known p w.program early)
    (h : (bindArguments call).outcome w = (.ok bindings, later)) :
    ∀ b ∈ bindings, ∀ r ∈ b.references, r.Known p later.program early := by
  have hkept := keptByParts_advances p early
  rcases hkept.exists_of_bindArguments h with ⟨f, formals, w₁, haction, hw₁, hmap⟩ | ⟨-, rfl⟩
  · intro b hb r hr
    obtain ⟨⟨formal, actual⟩, hpair, u, v, hu, hbind, hv⟩ := Pass.outcome_mapM_mem
      (fun pair : ValueId × Reference => hkept.bindArgument call pair.1 pair.2) hmap hb
    obtain ⟨hformal, hactual⟩ := List.of_mem_zip hpair
    have hu := trans_of (Advances p early) hw₁ hu
    have hknown := hcall actual (call.mem_references_of_mem_operands hactual)
    exact (bindArgument_known (hu.coheres hw) (hformals f formals haction formal hformal)
      (hknown.of_namesMore hu.names) hbind r hr).of_namesMore hv.names
  · exact fun b hb => by cases hb

/-- What the statements of an instruction refer to. -/
theorem transcribeInst_known (hp : p.Coherent) (hw : Coheres p early w) (hviews : w.Views p)
    {i : InstId} {statements : List Statement}
    (h : (transcribeInst i).outcome w = (.ok statements, later)) :
    ∀ s ∈ statements, ∀ r ∈ s.references, r.Known p later.program early := by
  have hkept := keptByParts_advances p early
  obtain ⟨inst, hinst, ⟨-, rfl⟩ | ⟨-, w₁, w₂, w₃, s, bindings, hnames, hs, hreported, hbindings,
    rfl⟩⟩ := hkept.exists_of_transcribeInst h
  · exact fun s hs => by cases hs
  · have hw₁ := (hkept.nameRegisters inst).of_outcome hnames
    have hw₂ := trans_of (Advances p early) hw₁ ((hkept.toStatement i).of_outcome hs)
    have hw₃ := trans_of (Advances p early) hw₂ hreported
    have hlater := (hkept.bindArguments s).of_outcome hbindings
    have hinst₁ : w₁.program.inst? i = some inst := by
      rw [Program.inst?_of_nameless hw₁.names.nameless, hinst]
    have hknown := toStatement_known (hw₁.coheres hw) hinst₁ (settled_of_nameRegisters hnames) hs
    obtain ⟨-, _, -, htranscribes⟩ := toStatement_ok (hviews.continues hw₁.continues) hs
    -- the formals of a call are parameters of what it calls
    have hformals : ∀ f formals, s.action = .call (.direct f formals) →
        ∀ v ∈ formals, p.isParameter v = true := by
      intro f formals haction v hv
      obtain ⟨-, -, -, function, hfunction, rfl⟩ := htranscribes.call f formals haction
      have hv : v ∈ function.params := by
        split at hv
        · cases hv
        · exact hv
      obtain ⟨k, hk⟩ := List.mem_iff_getElem?.1 hv
      obtain ⟨value, hvalue, horigin⟩ := hp.value_of_param hfunction hk
      rw [Program.isParameter, hvalue, Option.any_some, horigin]
      rfl
    have hcall : ∀ r ∈ s.references, r.Known p w₃.program early :=
      fun r hr => (hknown r hr).of_namesMore hreported.names
    refine List.forall_mem_append.2 ⟨bindArguments_known (hw₃.coheres hw) hformals hcall hbindings,
      List.forall_mem_singleton.2 fun r hr => (hcall r hr).of_namesMore hlater.names⟩

/-- What a listing refers to. -/
theorem known_of_transcribe (hp : p.Assembled) (hw : Coheres p early w) (hviews : w.Views p)
    (hassembled : w.program.Assembled) {discard : Bool} {l : Listing}
    (h : (transcribe discard).outcome w = (.ok l, later)) {r : Reference} (hr : l.Contains r) :
    r.Known p later.program early := by
  have hstatements : ∀ s ∈ l.statements, ∀ r ∈ s.references, r.Known p later.program early := by
    intro s hs r hr
    obtain ⟨i, statements, u, v, hmem, hu, hinst, hv⟩ :=
      (keptByParts_advances p early).exists_of_mem h hs
    exact (transcribeInst_known hp.coherent (hu.coheres hw) (hviews.continues hu.continues) hinst
      s hmem r hr).of_namesMore hv.names
  rcases hr with ⟨s, hs, hr⟩ | ⟨f, hreturned⟩
  · exact hstatements s hs r hr
  · -- what a function returns is the operand of one of its returns
    obtain ⟨s, hs, -, hr⟩ :=
      (Listing.Reached.transcribed discard hassembled h).returnsListed f r hreturned
    obtain ⟨place, -, -, hs⟩ := Listing.mem_statementsOf.1 hs
    have hs : s ∈ l.statements := (List.filter_sublist.map Entry.statement).subset hs
    exact hstatements s hs r (s.mem_references_of_mem_operands hr)

end Known

variable {p : Program} {listings : List Listing}

/-- A parameter whose operand was asked for too early has no name of its own. -/
theorem nameless_of_early {requests : List Request} {v : ValueId}
    (h : Request.Early (.fresh p listings) requests v) :
    p.isParameter v = true ∧ p.isNamed v = false := by
  obtain ⟨hparam, front, back, -, hunnamed⟩ := h
  refine ⟨hparam, Bool.eq_false_iff.2 fun hnamed => ?_⟩
  rw [Session.program, (coheres_serve p listings front).names.named v hnamed] at hunnamed
  cases hunnamed

/-- **An operand of a parameter is out of date just if it was asked for too early.**  After any
requests to a context, every operand that a listing contains for a parameter is what the parameter
is classified as in the program that the listing leaves behind, unless the operand was asked for
before the parameter had a name; then it is what the parameter was classified as at first.
Subscripts are never out of date.  An operand is of an unsupported kind just if it was asked for too
early. -/
theorem operand_eq_iff_of_transcribe (hp : p.Assembled) (listings : List Listing)
    (requests : List Request) {discard : Bool} {l : Listing} {later : Workspace}
    (h : (transcribe discard).outcome ((Session.fresh p listings).serve requests).workspace =
      (.ok l, later))
    {r : Reference} (hr : l.Contains r) :
    (∀ v, r.value = some v → p.isParameter v = true →
      (Operand.ofValue later.program v = .ok r.operand ↔
        ¬Request.Early (.fresh p listings) requests v) ∧
      (Request.Early (.fresh p listings) requests v → Operand.ofValue p v = .ok r.operand)) ∧
    (∀ s ∈ r.operand.subscripts, p.isParameter s.value = true →
      Operand.ofValue later.program s.value = .ok (.ofSubscript s)) ∧
    (r.operand.kind = .unsupported ↔
      ∃ v, r.value = some v ∧ Request.Early (.fresh p listings) requests v) := by
  have hcoheres := coheres_serve p listings requests
  have hcontinues := keptBySteps_continues.serve (.fresh p listings) requests
  have hviews : ((Session.fresh p listings).serve requests).workspace.Views p :=
    Views.continues ⟨rfl, Shared.sound_empty⟩ hcontinues
  have hknown := known_of_transcribe hp hcoheres hviews (hp.edits hcontinues.edits) h hr
  have hnameless : later.program.nameless = p.nameless :=
    ((keeps_transcribe discard).of_outcome h).nameless.trans hviews.nameless
  have hearly (v : ValueId) (hv : Request.Early (.fresh p listings) requests v) :=
    nameless_of_early hv
  refine ⟨fun v hv hparam => ⟨hknown.ofValue_eq_iff hnameless hearly hv hparam, ?_⟩, ?_,
    hknown.kind_eq_unsupported_iff hnameless hearly⟩
  · exact hknown.ofValue_of_early (fun v hv => hv.1) hv
  · exact fun s hs => hknown.ofValue_subscript hnameless (fun v hv => hv.1) hs

/-- A function that adds its two parameters, which have no names. -/
def premature : Program := .ofEdits "premature"
  [.function "main" (.int 32) [("", .int 32), ("", .int 32)],
    .block ⟨0⟩ "entry",
    .last ⟨0⟩ { opcode := .add, operands := [.value ⟨1⟩, .value ⟨2⟩], type := .int 32 },
    .last ⟨0⟩ { opcode := .ret, operands := [.value ⟨3⟩] }]

/-- The operand of a parameter that was classified before it had a name. -/
def prematureOperand : Operand where
  value := some ⟨1⟩
  kind := .unsupported
  memory := false
  pointer := false
  named := false
  formal := true
  address := none
  version := none

/-- The workspace after the operand of the first parameter was asked for. -/
def prematureWorkspace : Workspace :=
  ((Session.fresh premature []).serve [.operand ⟨1⟩]).workspace

theorem exists_transcribe_premature : ∃ l later,
    (transcribe false).outcome prematureWorkspace = (.ok l, later) ∧
      l.Contains ⟨prematureOperand, 0⟩ := by
  have hok : ((transcribe false).outcome
      prematureWorkspace).1.isOk = true := by decide +kernel
  have hlisted : ((transcribe false).outcome
      prematureWorkspace).1.toOption.all (fun l =>
        l.statements.any fun s => s.references.contains ⟨prematureOperand, 0⟩) = true := by
    decide +kernel
  obtain ⟨l, later, hl⟩ := Pass.exists_outcome_of_isOk hok
  rw [hl] at hlisted
  obtain ⟨s, hs, hr⟩ := List.any_eq_true.1 hlisted
  exact ⟨l, later, hl, .inl ⟨s, hs, by simpa using hr⟩⟩

theorem operand_eq_iff_of_transcribe_premature :
    Request.Early (.fresh premature []) [.operand ⟨1⟩] ⟨1⟩ ∧ ∃ l later,
      (transcribe false).outcome prematureWorkspace =
        (.ok l, later) ∧
      l.Contains ⟨prematureOperand, 0⟩ ∧
      Operand.ofValue premature ⟨1⟩ = .ok prematureOperand ∧
      Operand.ofValue later.program ⟨1⟩ ≠ .ok prematureOperand := by
  have hearly : Request.Early (.fresh premature []) [.operand ⟨1⟩] ⟨1⟩ :=
    ⟨by decide +kernel, [], [], rfl, by decide +kernel⟩
  obtain ⟨l, later, hl, hcontains⟩ := exists_transcribe_premature
  obtain ⟨hparameter, -, -⟩ := operand_eq_iff_of_transcribe (Program.assembled_ofEdits _ _)
    [] [.operand ⟨1⟩] hl hcontains
  obtain ⟨hiff, hold⟩ := hparameter ⟨1⟩ rfl hearly.1
  exact ⟨hearly, l, later, hl, hcontains, hold hearly, fun hof => hiff.1 hof hearly⟩

/-- The listing refers to an operand of an unsupported kind, although the parameter has got a name
and would be classified by it. -/
theorem transcribe_premature : ∃ l later r,
    (transcribe false).outcome prematureWorkspace = (.ok l, later) ∧
      l.Contains r ∧ r.value = some ⟨1⟩ ∧ premature.isParameter ⟨1⟩ = true ∧
      r.operand.kind = .unsupported ∧ Operand.ofValue later.program ⟨1⟩ ≠ .ok r.operand := by
  obtain ⟨l, later, hl, hcontains⟩ := exists_transcribe_premature
  have hkind : (Operand.ofValue ((transcribe false).outcome
      prematureWorkspace).2.program ⟨1⟩).toOption.map Operand.kind =
        some .named := by
    decide +kernel
  rw [hl] at hkind
  refine ⟨l, later, _, hl, hcontains, rfl, by decide +kernel, rfl, fun hof => ?_⟩
  rw [hof] at hkind
  cases hkind

end Workspace

end LevelIr
