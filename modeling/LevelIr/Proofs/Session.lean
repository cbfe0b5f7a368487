import LevelIr.Listing.Excerpt
import LevelIr.Proofs.Workspace
import LevelIr.Slot.Versioning

/-!
# Sessions

A program and its context serve any number of calls, one after another: listings of the whole
program, blocks that are added to excerpts, shared operands of single values, and versioning.  Each
call starts from what the earlier ones have left behind, whether they ended well or not.

* `Session` : the program with its context, and the listings and excerpts made so far.
* `Session.Request`, `Session.Call` : what a context is asked for, and all that can be done.
* `Session.calls`, `Session.serve` : the session after calls and after requests.
* `Session.kept_calls` : what each call keeps is kept by any sequence of them.
* `Workspace.KeptByParts.excerpt`, `Workspace.KeptBySteps.serve` : what the parts of a listing keep
  is kept by excerpts, and by any requests.
-/

namespace LevelIr

/-- Listings and excerpts of a program that were made with one context. -/
structure Session where
  /-- The program and its context. -/
  workspace : Workspace
  /-- The listings and the excerpts, in the order in which they were begun. -/
  listings : List Listing := []

namespace Session

/-- What a context is asked for. -/
inductive Request where
  /-- The listing of the program, with or without what depends on pointers. -/
  | transcribe (discard : Bool)
  /-- A new excerpt. -/
  | beginExcerpt
  /-- A block, to be added to an excerpt. -/
  | addBlock (n : Nat) (place : Place)
  /-- The shared operand of a value. -/
  | operand (v : ValueId)

/-- What is done in a session. -/
inductive Call where
  /-- The context is asked for something. -/
  | request (request : Request)
  /-- The loads of a function are versioned. -/
  | versionFunction (oracle : Oracle) (f : FunctionId)
  /-- The loads of all functions are versioned. -/
  | versionProgram (oracle : Oracle)
  /-- The table of slots goes on in another context, with operands and names of its own. -/
  | exchange (shared : Shared) (names : Names)

/-- Whether a call neither asks for a single operand nor changes to another context. -/
def Call.isPlain : Call → Bool
  | .request (.operand _) | .exchange _ _ => false
  | _ => true

/-- A session with a fresh context, and with listings that were made before. -/
def fresh (p : Program) (listings : List Listing) : Session where
  workspace := { program := p }
  listings := listings

/-- The program of the session. -/
def program (session : Session) : Program := session.workspace.program

/-- Runs a pass on the workspace of a session. -/
def onWorkspace {α : Type} (pass : Pass Workspace α) : Pass Session α :=
  pass.within workspace fun workspace session => { session with workspace }

/-- Asks for something.  A block that cannot be added to its end has changed the excerpt all the
same; there is nothing to do if the excerpt has not been begun. -/
def ask : Request → Pass Session Unit
  | .transcribe discard => do
    let l ← onWorkspace (Workspace.transcribe discard)
    modify fun session => { session with listings := session.listings ++ [l] }
  | .beginExcerpt => modify fun session => { session with listings := session.listings ++ [{}] }
  | .addBlock n place => do
    match (← get).listings[n]? with
    | some l =>
      let _ ← (Excerpt.add place).within (fun session => (l, session.workspace))
        fun state session => { workspace := state.2, listings := session.listings.set n state.1 }
    | none => return ()
  | .operand v => do
    let _ ← onWorkspace (Workspace.sharedOperand v)

/-- Makes a call. -/
def call : Call → Pass Session Unit
  | .request request => ask request
  | .versionFunction oracle f => do
    let _ ← onWorkspace (Workspace.versionFunction oracle f)
  | .versionProgram oracle => do
    let _ ← onWorkspace (Workspace.versionProgram oracle)
  | .exchange shared names => onWorkspace <|
    modify fun w => { w with context := { w.context with shared, names } }

/-- The session after calls, one after another, whether they end well or not. -/
def calls (session : Session) (list : List Call) : Session :=
  list.foldl (fun session c => ((call c).outcome session).2) session

/-- The session after requests. -/
def serve (session : Session) (requests : List Request) : Session :=
  session.calls (requests.map .request)

theorem serve_append (session : Session) (front back : List Request) :
    session.serve (front ++ back) = (session.serve front).serve back := by
  rw [serve, List.map_append, calls, List.foldl_append]
  rfl

/-! ### What calls keep -/

/-- What each call keeps is kept by any sequence of them. -/
theorem kept_calls {R : Session → Session → Prop} [IsPreorder Session R] {list : List Call}
    (h : ∀ c ∈ list, Pass.Keeps R (call c)) (session : Session) :
    R session (session.calls list) := by
  induction list generalizing session with
  | nil => exact refl_of R session
  | cons c list ih =>
    rw [List.forall_mem_cons] at h
    exact trans_of R (h.1 session) (ih h.2 _)

end Session

namespace Workspace

variable {R : Workspace → Workspace → Prop} [IsPreorder Workspace R]

instance {τ : Type} (view : τ → Workspace) : IsPreorder τ (InvImage R view) where
  refl state := refl_of R (view state)
  trans _ _ _ hab hbc := trans_of R hab hbc

theorem keeps_modify_listing (change : Listing → Listing) :
    Pass.Keeps (InvImage R Prod.snd)
      (modify fun (l, w) => (change l, w) : Pass (Listing × Workspace) PUnit) :=
  Pass.keeps_modify fun state => refl_of R state.2

theorem KeptByParts.statement? (h : KeptByParts R) (i : InstId) :
    Pass.Keeps R (Excerpt.statement? i) := by
  refine Pass.keeps_get.bind fun w => (Pass.keeps_lift _).bind fun inst => ?_
  split
  · exact Pass.keeps_pure _
  · refine (h.nameRegisters inst).bind fun _ => (h.toStatement i).bind fun s => ?_
    split
    · exact Pass.keeps_pure _
    · exact Pass.keeps_pure _

theorem KeptByParts.addInst (h : KeptByParts R) (place : Place) (i : InstId) :
    Pass.Keeps (InvImage R Prod.snd) (Excerpt.addInst place i) := by
  refine Pass.Keeps.bind ((h.statement? i).within fun _ _ hw => hw) fun found => ?_
  cases found with
  | none => exact Pass.keeps_pure _
  | some s => exact (keeps_modify_listing (·.push place s)).bind fun _ => Pass.keeps_pure _

/-- What every part keeps is kept by adding a block to an excerpt, whether it ends well or not. -/
theorem KeptByParts.excerpt (h : KeptByParts R) (place : Place) :
    Pass.Keeps (InvImage R Prod.snd) (Excerpt.add place) :=
  (keeps_modify_listing fun l => (l.addFunction place.function).addBlock place).bind fun _ =>
    Pass.keeps_get.bind fun _ => (Pass.keeps_lift _).bind fun block => Pass.keeps_foldlM
      (fun _ i => (h.addInst place i).bind fun _ => Pass.keeps_pure _) block.insts 0

omit [IsPreorder Workspace R] in
theorem keeps_onWorkspace {α : Type} {pass : Pass Workspace α} (h : Pass.Keeps R pass) :
    Pass.Keeps (InvImage R Session.workspace) (Session.onWorkspace pass) :=
  h.within fun _ _ hw => hw

theorem keeps_modify_listings (change : Session → List Listing) :
    Pass.Keeps (InvImage R Session.workspace)
      (modify fun session => { session with listings := change session } : Pass Session PUnit) :=
  Pass.keeps_modify fun session => refl_of R session.workspace

/-- What every part keeps is kept by a listing or an excerpt that a session asks for. -/
theorem KeptByParts.ask (h : KeptByParts R) {request : Session.Request}
    (hrequest : ∀ v, request ≠ .operand v) :
    Pass.Keeps (InvImage R Session.workspace) (Session.ask request) := by
  cases request with
  | transcribe discard =>
    exact (keeps_onWorkspace (h.transcribe discard)).bind fun l =>
      keeps_modify_listings fun session => session.listings ++ [l]
  | beginExcerpt => exact keeps_modify_listings fun session => session.listings ++ [({} : Listing)]
  | addBlock n place =>
    refine Pass.keeps_get.bind fun session => ?_
    split
    · refine Pass.Keeps.bind ((h.excerpt place).within fun _ _ hw => hw) fun _ => ?_
      exact Pass.keeps_pure _
    · exact Pass.keeps_pure _
  | operand v => exact absurd rfl (hrequest v)

theorem KeptBySteps.ask (h : KeptBySteps R) (request : Session.Request) :
    Pass.Keeps (InvImage R Session.workspace) (Session.ask request) := by
  cases request with
  | operand v => exact (keeps_onWorkspace (h.sharedOperand v)).bind fun _ => Pass.keeps_pure _
  | transcribe | beginExcerpt | addBlock => exact h.parts.ask (by simp)

/-- What every step keeps is kept by any sequence of requests. -/
theorem KeptBySteps.serve (h : KeptBySteps R) (session : Session)
    (requests : List Session.Request) : R session.workspace (session.serve requests).workspace := by
  refine Session.kept_calls (R := InvImage R Session.workspace) (fun c hc => ?_) session
  obtain ⟨request, -, rfl⟩ := List.mem_map.1 hc
  exact h.ask request

end Workspace

end LevelIr
