import ContextBinding.Proofs.Conclusion
import ContextBinding.Proofs.Entries

/-! What a run upholds about programs. Whatever editing code and the registering, copying and
retiring of types and members uphold holds at every point of a run if it held before. -/

namespace ContextBinding

namespace Program

/-- A property of programs lasts through all that a run does to a program. -/
structure Enduring (I : Program → Prop) : Prop where
  indifferent : Indifferent I
  addType : ∀ nameSpace name declaring flags, Upholds I (addType nameSpace name declaring flags)
  addField : ∀ owner name type flags, Upholds I (addField owner name type flags)
  addMethod : ∀ owner name params result flags, Upholds I (addMethod owner name params result flags)
  cloneMethod : ∀ id owner name shape, Upholds I (cloneMethod id owner name shape)
  cloneType : ∀ id declaring, Upholds I (cloneType id declaring)
  retireMethod : ∀ id, Upholds I (retireMethod id)
  retireField : ∀ id, Upholds I (retireField id)

end Program

variable {I : Program → Prop} (hI : Program.Enduring I)

namespace CodeEdit

theorem upholds_edit {α : Type} {e : Edit α} (h : Upholds I e) :
    Upholds (fun w => I w.program) (edit e) :=
  .focus h (fun _ h => h) fun _ _ _ h => h

theorem upholds_query {α : Type} {question : Program → Query α} :
    Upholds (fun w => I w.program) (query question) :=
  .bind (.bind .get fun _ => .pure _) fun _ =>
    .focus (J := fun _ => True) (fun _ _ _ _ => trivial) (fun _ _ => trivial) fun _ _ h _ => h

theorem upholds_model {α : Type} {f : Program → Except ModelError α} :
    Upholds (fun w => I w.program) (model f) := by
  refine .bind (.bind .get fun _ => .pure _) fun p => ?_
  split
  · exact .pure _
  · exact .throw _

theorem upholds_bound {α : Type} {f : Program → Except BindingError α} :
    Upholds (fun w => I w.program) (bound f) := by
  refine .bind (.bind .get fun _ => .pure _) fun p => ?_
  split
  · exact .pure _
  · exact .throw _

include hI

theorem upholds_insertAhead {method : MethodId} {anchor : InstrId} {seq : List Instruction} :
    Upholds (fun w => I w.program) (insertAhead method anchor seq) :=
  .bind (upholds_edit hI.indifferent.editBody) fun _ => .pure _

theorem upholds_insertBelow {method : MethodId} {id : InstrId} {slot : Nat}
    {seq : List Instruction} : Upholds (fun w => I w.program) (insertBelow method id slot seq) := by
  refine .bind upholds_model fun i => .bind upholds_query fun effect => ?_
  refine .ite (fun _ => upholds_insertAhead hI) fun _ => .bind upholds_query fun paths => ?_
  split
  · exact upholds_insertAhead hI
  · refine .bind (.mapM fun k => .bind upholds_query fun type => ?_) fun types => ?_
    · split <;> exact .pure _
    · exact .bind (upholds_edit hI.indifferent.editBody) fun _ => .pure _

end CodeEdit

namespace CaptureRecord

include hI

theorem upholds_synthesize {root : TypeId} {key : RecordKey} : Upholds I (synthesize root key) := by
  refine .bind .get fun p => .bind (.lift _) fun m => .bind (.lift _) fun name => ?_
  refine .bind (hI.addType ..) fun type => .bind ?_ fun receiver => ?_
  · unfold declareReceiver
    split
    · exact .pure _
    · exact .bind (hI.addField ..) fun _ => .pure _
  · refine .bind (hI.addField ..) fun rootField => ?_
    refine .bind (hI.addMethod ..) fun constructor => ?_
    exact .bind hI.indifferent.setBody fun _ => .pure _

theorem upholds_trampoline {r : CaptureRecord} {forwarded replacement : MethodId} :
    Upholds I (r.trampoline forwarded replacement) := by
  unfold trampoline
  split
  · exact .pure _
  · refine .bind .get fun p => .bind (.lift _) fun source => .bind (.lift _) fun target => ?_
    refine .bind (hI.addMethod ..) fun method => ?_
    exact .bind hI.indifferent.setBody fun _ => .pure _

end CaptureRecord

namespace ClosureEdit

theorem upholds_work {α : Type} {e : CodeEdit α} (h : Upholds (fun w => I w.program) e) :
    Upholds (fun s => I s.2.program) (work e) :=
  .focus h (fun _ h => h) fun _ _ _ h => h

theorem upholds_edit {α : Type} {e : Edit α} (h : Upholds I e) :
    Upholds (fun s => I s.2.program) (edit e) :=
  upholds_work (CodeEdit.upholds_edit h)

theorem upholds_closures : Upholds (fun s => I s.2.program) closures := .bind .get fun _ => .pure _

theorem upholds_program : Upholds (fun s => I s.2.program) program :=
  upholds_work (.bind .get fun _ => .pure _)

theorem upholds_update {f : Closures → Closures} : Upholds (fun s => I s.2.program) (update f) :=
  .modify fun _ h => h

theorem upholds_unrecognized {method : MethodId} {id : InstrId} {defect : CallableDefect} :
    Upholds (fun s => I s.2.program) (unrecognized method id defect) :=
  .bind upholds_closures fun _ => .ite (fun _ => .bind upholds_program fun _ => .throw _)
    fun _ => .bind upholds_update fun _ => .pure _

theorem upholds_constructionOf? {method : MethodId} {pointer : InstrId} :
    Upholds (fun s => I s.2.program) (constructionOf? method pointer) := by
  refine .bind (upholds_work CodeEdit.upholds_query) fun usage => ?_
  split
  · refine .ite (fun _ => ?_) fun _ => .pure _
    refine .bind (upholds_work CodeEdit.upholds_model) fun i => .bind upholds_program fun p => ?_
    exact .ite (fun _ => .pure _) fun _ => .pure _
  · exact .pure _

theorem upholds_receiverPaths {method : MethodId} {construct : InstrId} :
    Upholds (fun s => I s.2.program) (receiverPaths method construct) :=
  upholds_work CodeEdit.upholds_query

include hI

theorem upholds_editBody {α : Type} {method : MethodId} {e : BodyEdit α} :
    Upholds (fun s => I s.2.program) (edit (Program.editBody method e)) :=
  upholds_edit hI.indifferent.editBody

theorem upholds_expandCache {method : MethodId} {construct : InstrId} :
    Upholds (fun s => I s.2.program) (expandCache method construct) := by
  refine .bind upholds_receiverPaths fun paths => ?_
  split
  · refine .bind (upholds_work CodeEdit.upholds_model) fun b => ?_
    split
    · exact upholds_editBody hI
    · exact .pure _
  · exact .pure _

theorem upholds_redirect {method target : MethodId} {pointer : InstrId} {seq : List Instruction} :
    Upholds (fun s => I s.2.program) (redirect method pointer seq target) :=
  .bind (upholds_editBody hI) fun _ => .pure _

theorem upholds_record {key : RecordKey} : Upholds (fun s => I s.2.program) (record key) := by
  refine .bind upholds_closures fun c => ?_
  dsimp only
  split
  · exact .pure _
  · refine .bind (upholds_edit (CaptureRecord.upholds_synthesize hI)) fun r => ?_
    exact .bind upholds_update fun _ => .pure _

theorem upholds_constructRecord {site : RootedMethod} {first : List Instruction}
    {receiver : Option TypeId} {b : Binding} :
    Upholds (fun s => I s.2.program) (constructRecord site first receiver b) := by
  refine .bind (.bind (upholds_record hI) fun r => ?_) fun made => ?_
  · refine .bind (upholds_edit (CaptureRecord.upholds_trampoline hI)) fun made => ?_
    exact .bind upholds_update fun _ => .pure _
  · exact .bind (upholds_work CodeEdit.upholds_bound) fun _ => .pure _

theorem upholds_adaptCapture {plan : ContextPlan} {site : RootedMethod} {pointer : InstrId}
    {b : Binding} : Upholds (fun s => I s.2.program) (adaptCapture plan site pointer b) := by
  have hOwner : Upholds (fun s => I s.2.program) (ownerOf b) :=
    .bind (upholds_work CodeEdit.upholds_model) fun _ => .pure _
  refine .bind (upholds_work CodeEdit.upholds_model) fun i => ?_
  refine .bind upholds_constructionOf? fun construct => ?_
  split
  · exact upholds_unrecognized
  · refine .bind (upholds_expandCache hI) fun _ => .bind upholds_receiverPaths fun receiver => ?_
    refine .bind (upholds_work CodeEdit.upholds_model) fun body => ?_
    dsimp only
    split
    · exact .bind (upholds_work CodeEdit.upholds_bound) fun _ => upholds_redirect hI
    · exact .bind (upholds_constructRecord hI) fun _ => upholds_redirect hI
    · exact .bind hOwner fun _ => .bind (upholds_constructRecord hI) fun _ => upholds_redirect hI
    · refine .bind hOwner fun _ => .bind (upholds_constructRecord hI) fun _ => ?_
      exact .bind (upholds_editBody hI) fun _ => .pure _
    · exact upholds_unrecognized
    · exact upholds_unrecognized

theorem upholds_ensureDisplayRoot {type : TypeId} :
    Upholds (fun s => I s.2.program) (ensureDisplayRoot type) := by
  refine .bind upholds_closures fun c => ?_
  split
  · exact .pure _
  · refine .bind (upholds_edit (hI.addField ..)) fun field => ?_
    exact .bind upholds_update fun _ => .pure _

theorem upholds_storeDisplayRoot {site : RootedMethod} {id : InstrId} {field : FieldId} :
    Upholds (fun s => I s.2.program) (storeDisplayRoot site id field) :=
  .bind (upholds_work CodeEdit.upholds_bound) fun _ => .bind (upholds_editBody hI) fun _ => .pure _

theorem upholds_relocateDisplayClasses {method : MethodId} {holder generated : TypeId} :
    Upholds (fun s => I s.2.program) (relocateDisplayClasses method holder generated) := by
  have hRemap {clone : TypeClone} :
      Upholds (fun s => I s.2.program) (edit (Program.remapMembers method clone)) :=
    upholds_edit hI.indifferent.remapMembers
  refine .bind (upholds_work CodeEdit.upholds_model) fun m => ?_
  split
  · exact .pure _
  · refine .bind (upholds_work CodeEdit.upholds_model) fun created => ?_
    refine .bind (.mapM fun display => .bind upholds_closures fun c => ?_) fun _ => .pure _
    split
    · exact .bind hRemap fun _ => .pure _
    · refine .bind (.bind (upholds_edit (hI.cloneType ..)) fun clone => ?_) fun clone => ?_
      · exact .bind upholds_update fun _ => .pure _
      · exact .bind hRemap fun _ => .pure _

end ClosureEdit

namespace Propagate

theorem upholds_work {α : Type} {e : CodeEdit α} (h : Upholds (fun w => I w.program) e) :
    Upholds (fun s => I s.program) (work e) :=
  .focus h (fun _ h => h) fun _ _ _ h => h

theorem upholds_edit {α : Type} {e : Edit α} (h : Upholds I e) :
    Upholds (fun s => I s.program) (edit e) :=
  upholds_work (CodeEdit.upholds_edit h)

theorem upholds_closures {α : Type} {e : ClosureEdit α}
    (h : Upholds (fun s => I s.2.program) e) : Upholds (fun s => I s.program) (closures e) :=
  .focus h (fun _ h => h) fun _ _ _ h => h

theorem upholds_program : Upholds (fun s => I s.program) program := .bind .get fun _ => .pure _

theorem upholds_model {α : Type} {f : Program → Except ModelError α} :
    Upholds (fun s => I s.program) (model f) :=
  upholds_work CodeEdit.upholds_model

theorem upholds_bound {α : Type} {f : Program → Except BindingError α} :
    Upholds (fun s => I s.program) (bound f) :=
  upholds_work CodeEdit.upholds_bound

theorem upholds_graph {α : Type} {e : Program → GraphEdit α} :
    Upholds (fun s => I s.program) (graph e) :=
  .bind upholds_program fun _ =>
    .focus (J := fun _ => True) (fun _ _ _ _ => trivial) (fun _ _ => trivial) fun _ _ h _ => h

theorem upholds_count {f : PropagationStats → PropagationStats} :
    Upholds (fun s => I s.program) (modify (.count f) : Propagate PUnit) :=
  .modify fun _ h => h

theorem upholds_enqueue {methods : List MethodId} :
    Upholds (fun s => I s.program) (modify (.enqueue methods) : Propagate PUnit) :=
  .modify fun _ h => h

theorem upholds_bindMethod {b : Binding} : Upholds (fun s => I s.program) (bindMethod b) :=
  .bind .get fun _ => .bind upholds_bound fun _ => .modify fun _ h => h

theorem upholds_loadContext {site : RootedMethod} {context : ContextId} {access : ChainAccess} :
    Upholds (fun s => I s.program) (loadContext site context access) :=
  .bind .get fun _ => upholds_bound

theorem upholds_handleOf? {method : MethodId} :
    Upholds (fun s => I s.program) (handleOf? method) := by
  refine .bind .get fun s => .bind upholds_model fun m => ?_
  dsimp only
  split
  · split <;> exact .pure _
  · refine .ite (fun _ => .pure _) fun _ => .ite (fun _ => .pure _) fun _ => ?_
    split <;> exact .pure _

theorem upholds_bindingGroup {method : MethodId} {withOverrides : Bool} :
    Upholds (fun s => I s.program) (bindingGroup method withOverrides) :=
  .bind .get fun _ => upholds_model

theorem upholds_requireUnconverted {method member : MethodId} :
    Upholds (fun s => I s.program) (requireUnconverted method member) := by
  refine .bind .get fun s => ?_
  split
  · exact .throw _
  · exact .pure _

include hI

section InPlace

variable {site : RootedMethod} {id : InstrId}

theorem upholds_editBody {α : Type} {method : MethodId} {e : BodyEdit α} :
    Upholds (fun s => I s.program) (editBody method e) :=
  upholds_edit hI.indifferent.editBody

theorem upholds_insertBelow {method : MethodId} {slot : Nat} {seq : List Instruction} :
    Upholds (fun s => I s.program) (insertBelow method id slot seq) := by
  refine .bind (upholds_work (CodeEdit.upholds_insertBelow hI)) fun placement => ?_
  cases placement with
  | before _ => exact .pure _
  | spilled _ => exact upholds_count

theorem upholds_adaptField {context : ContextId} {moved : FieldId} :
    Upholds (fun s => I s.program) (adaptField site id context moved) := by
  refine .bind (upholds_work CodeEdit.upholds_model) fun i => ?_
  split
  · exact .bind upholds_loadContext fun _ => .bind (upholds_editBody hI) fun _ => .pure _
  · exact .bind upholds_loadContext fun _ => .bind (upholds_editBody hI) fun _ => .pure _
  · refine .bind upholds_loadContext fun _ => .bind (upholds_insertBelow hI) fun _ => ?_
    exact upholds_editBody hI
  · exact .pure _

theorem upholds_adaptCall {b : Binding} :
    Upholds (fun s => I s.program) (adaptCall site id b) := by
  refine .bind (upholds_work CodeEdit.upholds_model) fun i => ?_
  have hRest (slot : Nat) : Upholds (fun s => I s.program) (do
      let root ← bound fun p => site.handle.loadRoot p site.method
      insertBelow site.method id slot root
      editBody site.method (MethodBody.setOperand id (.method b.replacement))) :=
    .bind upholds_bound fun _ => .bind (upholds_insertBelow hI) fun _ => upholds_editBody hI
  split
  · refine .ite (fun _ => .bind (.pure _) hRest) fun _ => ?_
    exact .bind upholds_model fun _ => .bind (.pure _) hRest
  · refine .bind upholds_loadContext fun _ => .bind (upholds_insertBelow hI) fun _ => ?_
    exact upholds_editBody hI
  · exact .pure _

theorem upholds_adaptSite {place : NeedySite} :
    Upholds (fun s => I s.program) (adaptSite site place) := by
  unfold adaptSite
  split
  · exact .bind (upholds_adaptField hI) fun _ => .pure _
  · refine .bind (.bind upholds_loadContext fun _ => ?_) fun _ => .pure _
    exact .bind (upholds_editBody hI) fun _ => .pure _
  · exact .bind (upholds_adaptCall hI) fun _ => .pure _
  · refine .bind upholds_count fun _ => .bind .get fun _ => ?_
    refine .bind (upholds_closures (ClosureEdit.upholds_adaptCapture hI)) fun outcome => ?_
    split <;> exact .pure _
  · exact .bind (upholds_closures (ClosureEdit.upholds_storeDisplayRoot hI)) fun _ => .pure _

theorem upholds_adaptInPlace {places : List NeedySite} :
    Upholds (fun s => I s.program) (adaptInPlace site places) := by
  refine .bind (.mapM fun _ => upholds_adaptSite hI) fun _ => .ite (fun _ => ?_) fun _ => .pure _
  exact .bind upholds_count fun _ => upholds_graph

end InPlace

section Transition

variable {method replacement : MethodId} {context : ContextId}

theorem upholds_displayHandle? : Upholds (fun s => I s.program) (displayHandle? method) := by
  refine .bind upholds_model fun m => .bind upholds_model fun t => ?_
  refine .ite (fun _ => .pure _) fun _ => ?_
  refine .bind (upholds_closures (ClosureEdit.upholds_ensureDisplayRoot hI)) fun made => ?_
  refine .ite (fun _ => .bind .get fun _ => .bind upholds_enqueue fun _ => .pure _) fun _ => ?_
  exact .pure _

theorem upholds_makeCopy {source : MethodId} {owner : TypeId} {name : String}
    {params : List TypeRef} {shape : MethodShape} :
    Upholds (fun s => I s.program) (makeCopy source owner name params shape) := by
  refine .bind upholds_program fun p => .bind (upholds_edit (hI.cloneMethod ..)) fun copy => ?_
  refine .bind (upholds_edit (hI.indifferent.modifyMethod fun m => ?_)) fun _ => .pure _
  simp [MethodDef.filing, MethodDef.paramTypes, MethodDef.isRetired, FlagSet.has_insert, Flag.bit]

theorem upholds_alignProperty {into : Option TypeId} :
    Upholds (fun s => I s.program) (alignProperty into method replacement) := by
  refine .bind upholds_model fun m => .ite (fun _ => .bind upholds_model fun owner => ?_) fun _ =>
    .pure _
  split
  · exact .pure _
  · refine .ite (fun _ => upholds_edit (hI.indifferent.modifyMethod fun m => ?_)) fun _ => ?_
    · simp [MethodDef.filing, MethodDef.paramTypes, MethodDef.isRetired, FlagSet.has_erase,
        Flag.bit]
    · split
      · exact upholds_edit (hI.indifferent.modifyType fun _ => ⟨rfl, rfl, rfl⟩)
      · refine .bind upholds_model fun target => .ite (fun _ => ?_) fun _ => .pure _
        refine .bind .get fun s => ?_
        exact upholds_edit hI.indifferent.addProperty

theorem upholds_mapOverrides {bound : List (MethodId × MethodId)} :
    Upholds (fun s => I s.program) (mapOverrides bound replacement) := by
  refine .bind upholds_model fun m => .bind .get fun s => .ite (fun _ => ?_) fun _ => .pure _
  exact upholds_edit (hI.indifferent.modifyMethod fun _ => rfl)

theorem upholds_complete {bound : List (MethodId × MethodId)} :
    Upholds (fun s => I s.program) (complete bound) := by
  have hDerive (callers : List MethodId) : Upholds (fun s => I s.program) (do
      bound.forM fun e => do
        graph fun p => GraphEdit.rederive p e.1
        graph fun p => GraphEdit.rederive p e.2
        if (← model fun p => p.methodDef e.2).body.isSome then modify (.enqueue [e.2])
        modify (.count fun n => { n with transitions := n.transitions + 1 })
      modify (.enqueue callers) : Propagate Unit) := by
    refine .bind (.forM fun e => .bind upholds_graph fun _ => .bind upholds_graph fun _ =>
      .bind upholds_model fun m => ?_) fun _ => upholds_enqueue
    exact .ite (fun _ => .bind upholds_enqueue fun _ => upholds_count) fun _ => upholds_count
  refine .ite (fun _ => .bind .get fun s => .bind (.mapM fun e => ?_) fun virtuals => ?_) fun _ =>
    .pure _
  · refine .bind upholds_model fun m => .bind .get fun s => .ite (fun _ => ?_) fun _ => .pure _
    exact .bind (upholds_edit (hI.retireMethod _)) fun _ => .pure _
  · exact .ite (fun _ => .bind upholds_graph fun _ => hDerive _) fun _ => hDerive _

theorem upholds_adoptInitUnit :
    Upholds (fun s => I s.program) (adoptInitUnit context method replacement) := by
  have hInline {constructor : MethodId} :
      Upholds (fun s => I s.program) (inlineInitUnit constructor replacement) := by
    refine .bind upholds_model fun m => ?_
    split
    · exact .bind (upholds_edit hI.indifferent.setBody) fun _ => upholds_graph
    · refine .ite (fun _ => ?_) fun _ => .pure _
      exact .bind (upholds_editBody hI) fun _ => upholds_graph
  refine .get_bind fun s hProgram => .ite (fun _ => ?_) fun _ => .pure _
  refine .bind (.set hProgram) fun _ => ?_
  exact .ite (fun _ => hInline) fun _ => .pure _

theorem upholds_convertedReplacement :
    Upholds (fun s => I s.program) (convertedReplacement method context) := by
  refine .bind .get fun s => ?_
  dsimp only
  split
  · exact .pure _
  · refine .bind upholds_model fun m => .bind upholds_program fun p => ?_
    split
    · exact .pure _
    · exact .bind (upholds_makeCopy hI) fun _ => .pure _

theorem upholds_convertOne : Upholds (fun s => I s.program) (convertOne context method) := by
  refine .bind .get fun s => .ite (fun _ => .pure _) fun _ => ?_
  refine .bind (upholds_convertedReplacement hI) fun made => .bind upholds_bindMethod fun _ => ?_
  have hRest : Upholds (fun s => I s.program) (do
      adoptInitUnit context method made.1
      pure (some (method, made.1)) : Propagate (Option (MethodId × MethodId))) :=
    .bind (upholds_adoptInitUnit hI) fun _ => .pure _
  refine .ite (fun _ => .bind (upholds_closures ?_) fun copied => ?_) fun _ => hRest
  · exact ClosureEdit.upholds_relocateDisplayClasses hI
  · exact .bind upholds_enqueue fun _ => hRest

theorem upholds_addParameterTo : Upholds (fun s => I s.program) (addParameterTo method) := by
  refine .bind .get fun s => .ite (fun _ => .pure _) fun _ => ?_
  refine .bind upholds_model fun m => .bind upholds_program fun p => ?_
  have hRest (replacement : MethodId) : Upholds (fun s => I s.program) (do
      bindMethod ⟨method, replacement, .addedParameter⟩
      pure (some (method, replacement)) : Propagate (Option (MethodId × MethodId))) :=
    .bind upholds_bindMethod fun _ => .pure _
  dsimp only
  split
  · exact .bind (.pure _) hRest
  · exact .bind (upholds_makeCopy hI) hRest

theorem upholds_bindNeedy {places : List NeedySite} :
    Upholds (fun s => I s.program) (bindNeedy method places) := by
  have hConvert {context : ContextId} :
      Upholds (fun s => I s.program) (convert method context) := by
    refine .bind .get fun s => .bind upholds_bindingGroup fun group => ?_
    refine .bind (.mapM fun _ => upholds_convertOne hI) fun made => ?_
    exact .bind (.forM fun _ => upholds_alignProperty hI) fun _ => upholds_complete hI
  have hAdd : Upholds (fun s => I s.program) (addParameter method) := by
    refine .bind upholds_bindingGroup fun group => .bind (.forM fun _ => ?_) fun _ => ?_
    · exact upholds_requireUnconverted
    · refine .bind (.mapM fun _ => upholds_addParameterTo hI) fun made => ?_
      refine .bind (.forM fun _ => upholds_mapOverrides hI) fun _ => ?_
      exact .bind (.forM fun _ => upholds_alignProperty hI) fun _ => upholds_complete hI
  refine .bind upholds_model fun m => .bind .get fun s => ?_
  split
  · exact .ite (fun _ => hConvert) fun _ => hAdd
  · exact hAdd

/-- What lasts through edits of programs lasts through a visit. -/
theorem upholds_visit : Upholds (fun s => I s.program) (visit method) := by
  refine .bind upholds_count fun _ => .bind upholds_model fun m => .bind .get fun s => ?_
  refine .ite (fun _ => ?_) fun _ => .pure _
  refine .bind (.bind .get fun _ => .bind upholds_model fun _ => .pure _) fun places => ?_
  refine .ite (fun _ => .bind upholds_handleOf? fun handle => ?_) fun _ => .pure _
  split
  · exact upholds_adaptInPlace hI
  · refine .bind (upholds_displayHandle? hI) fun handle => ?_
    split
    · exact upholds_adaptInPlace hI
    · exact upholds_bindNeedy hI

theorem upholds_bindReplacements : Upholds (fun s => I s.program) bindReplacements := by
  refine .bind .get fun s => .bind (.mapM fun b => .bind upholds_model fun m => ?_) fun made => ?_
  · refine .ite (fun _ => .pure _) fun _ => ?_
    exact .bind upholds_bindMethod fun _ => .pure _
  · exact upholds_complete hI

theorem upholds_retireMovedFields : Upholds (fun s => I s.program) retireMovedFields := by
  refine .bind .get fun s => .ite (fun _ => .forM fun field => ?_) fun _ => .pure _
  refine .bind upholds_model fun f => .ite (fun _ => ?_) fun _ => .pure _
  exact upholds_edit (hI.retireField _)

end Transition

section Run

theorem upholds_batch : Upholds (fun s => I s.program) batch := by
  refine .bind upholds_count fun _ => .get_bind fun s hProgram => ?_
  have hVisits : Upholds (fun s => I s.program) (do
      set { s with pending := [] }
      s.pending.forM visit : Propagate Unit) :=
    .bind (.set hProgram) fun _ => .forM fun _ => upholds_visit hI
  split
  · exact .ite (fun _ => .bind (.throw _) fun _ => hVisits) fun _ => hVisits
  · exact hVisits

omit hI in
theorem upholds_whilePending {step : Propagate Unit} (h : Upholds (fun s => I s.program) step)
    (n : Nat) : Upholds (fun s => I s.program) (whilePending step n) := by
  induction n with
  | zero => exact .pure _
  | succ n ih => exact .bind .get fun _ => .ite (fun _ => .bind h fun _ => ih) fun _ => .pure _

theorem upholds_batches (level : Nat) : Upholds (fun s => I s.program) (batches level) := by
  induction level with
  | zero => exact upholds_batch hI
  | succ level ih => exact .bind .get fun _ => upholds_whilePending ih _

/-- What lasts through edits of programs lasts through a run, whether it succeeds or not. -/
theorem upholds_run : Upholds (fun s => I s.program) run := by
  refine .bind upholds_graph fun _ => .bind (upholds_bindReplacements hI) fun _ => ?_
  refine .bind (.modify fun _ h => h) fun _ => .bind ?_ fun _ => ?_
  · refine .bind (upholds_batches hI 3) fun _ => .bind .get fun _ => ?_
    exact .ite (fun _ => .throw _) fun _ => .pure _
  · exact .bind (upholds_retireMovedFields hI) fun _ => .modify fun _ h => h

end Run

end Propagate

namespace Propagation

variable {p : Program} {plan : ContextPlan} {options : PropagationOptions}

/-- A state of a run in which a method may be about to be copied: a visit begins, or some of the
methods that change together with the one that is visited were bound. -/
inductive Within (p : Program) (plan : ContextPlan) (options : PropagationOptions) :
    Propagation → Prop where
  | visit {c : Point} (h : Reached p plan options c) : Within p plan options c.2.visited
  | converted {s t : Propagation} {context : ContextId} {method : MethodId}
      {made : Option (MethodId × MethodId)} (prior : Within p plan options s)
      (h : Propagate.convertOne context method s = .ok made t) : Within p plan options t
  | extended {s t : Propagation} {method : MethodId} {made : Option (MethodId × MethodId)}
      (prior : Within p plan options s) (h : Propagate.addParameterTo method s = .ok made t) :
      Within p plan options t

include hI

/-- What lasts through edits of programs lasts through a run. -/
theorem Reached.upholds {c : Point} (h : Reached p plan options c) (hp : I p) : I c.2.program := by
  obtain ⟨s, hBuild, hReaches⟩ := h
  induction hReaches with
  | refl =>
      obtain ⟨v, -, rfl⟩ := Propagate.graph_ok.mp hBuild
      exact hp
  | tail _ hMoves ih =>
      cases hMoves with
      | @given s t hRun =>
          have hGiven : I t.program := Propagate.upholds_bindReplacements hI ih (Or.inl ⟨(), hRun⟩)
          exact hGiven
      | opened => exact ih
      | visited hRun => exact Propagate.upholds_visit hI ih (Or.inl ⟨(), hRun⟩)

/-- So it does in the middle of a visit. -/
theorem Within.upholds {s : Propagation} (h : Within p plan options s) (hp : I p) :
    I s.program := by
  induction h with
  | visit hReached => exact hReached.upholds hI hp
  | converted _ hRun ih => exact Propagate.upholds_convertOne hI ih (Or.inl ⟨_, hRun⟩)
  | extended _ hRun ih => exact Propagate.upholds_addParameterTo hI ih (Or.inl ⟨_, hRun⟩)

end Propagation

namespace Program

/-- The programs that come about over a digest: by changes, whatever types of parameters these name,
by editing what entries do not depend on, and by runs, at their end and on the way there. -/
inductive Arises (digest : String → UInt64) : Program → Prop where
  | start : Arises digest (.withDigest digest)
  | change {p : Program} {c : Change} (prior : Arises digest p) : Arises digest (c.after p)
  | edit {p q : Program} (prior : Arises digest p) (types : p.NamedAlike q)
      (table : q.methodTable = p.methodTable)
      (methods : q.methods.map MethodDef.entry = p.methods.map MethodDef.entry)
      (lists : q.types.map (·.methods) = p.types.map (·.methods)) : Arises digest q
  | run {p : Program} {plan : ContextPlan} {options : PropagationOptions} {s : Propagation}
      (prior : Arises digest p) (h : Ends Propagate.run (.start p plan options) s) :
      Arises digest s.program
  | within {p : Program} {plan : ContextPlan} {options : PropagationOptions} {s : Propagation}
      (prior : Arises digest p) (h : Propagation.Within p plan options s) : Arises digest s.program

theorem Tabled.enduring : Enduring Tabled where
  indifferent := Tabled.indifferent
  addType _ _ _ _ := tabled_addType
  addField _ _ _ _ := tabled_addField
  addMethod _ _ _ _ _ := tabled_addMethod
  cloneMethod _ _ _ _ := tabled_cloneMethod
  cloneType _ _ := tabled_cloneType
  retireMethod _ := tabled_retireMethod
  retireField _ := tabled_retireField

variable {digest : String → UInt64} {p : Program}

/-- However a program comes about, its table of methods holds what is entered there. -/
theorem Arises.tabled (h : p.Arises digest) : p.Tabled := by
  induction h with
  | start => exact .withDigest digest
  | change _ ih => exact tabled_after ih _
  | edit _ types table methods lists ih => exact ih.of_alike types table methods lists
  | @run p plan options s _ h ih =>
      have hStart : (Propagation.start p plan options).program.Tabled := ih
      exact Propagate.upholds_run Tabled.enduring hStart h
  | within _ h ih => exact h.upholds Tabled.enduring ih

theorem Arises.changes (h : p.Arises digest) (changes : List Change) :
    (changes.foldl Change.after p).Arises digest := by
  induction changes generalizing p with
  | nil => exact h
  | cons c rest ih => exact ih h.change

end Program

end ContextBinding
