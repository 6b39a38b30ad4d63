import BlockDiagram.Document.Decoding
import BlockDiagram.Document.Encoding
import BlockDiagram.Proofs.Data.Reading
/-! Round trips: a document read back from its data is the document that was written. Where a text keeps
only some reals, a document is read back if it keeps all that are required. -/

namespace BlockDiagram

theorem Operator.ofText?_text (op : Operator) : ofText? op.text = some op := by
  cases op <;> decide

namespace Formula

variable (kept : Float → Bool)

mutual

/-- Every literal of the formula is kept. -/
def keeps : Formula Float → Bool
  | .number x | .const x => kept x
  | .name _ | .var _ => true
  | .apply _ args => allKeep args

def allKeep : List (Formula Float) → Bool
  | [] => true
  | f :: rest => keeps f && allKeep rest

end

/-- The formula is one literal without a name of its kind, and not kept. -/
def isLost : Formula Float → Bool
  | .number x => !kept x
  | _ => false

variable {kept}

open Datum (nodeKeeping nodesKeeping entriesKeeping)

theorem ofLeaf?_ofKept (x : Float) :
    ofLeaf? (.ofKept kept x) = if kept x then some (.number x) else none := by
  rw [Leaf.ofKept]
  split <;> rfl

theorem ofConst?_record (x : Float) :
    ofConst? (entriesKeeping kept [("const", .real x)]) = if kept x then some (.const x) else none := by
  have hfields : Fields.ofEntries? ["const"] (Datum.fieldsKeeping kept [("const", .real x)]) =
      some [("const", .leaf (.ofKept kept x))] := rfl
  rw [ofConst?, Datum.freeFields?_record, hfields, Leaf.ofKept]
  cases kept x <;> rfl

theorem ofConst?_apply (d e : Datum) : ofConst? (entriesKeeping kept [("apply", d), ("args", e)]) = none := by
  have hfields : Fields.ofEntries? ["const"] (Datum.fieldsKeeping kept [("apply", d), ("args", e)]) =
      some [] := rfl
  rw [ofConst?, Datum.freeFields?_record, hfields]
  rfl

theorem ofVar?_apply (d e : Datum) : ofVar? (entriesKeeping kept [("apply", d), ("args", e)]) = none := by
  have hfields : Fields.ofEntries? ["var"] (Datum.fieldsKeeping kept [("apply", d), ("args", e)]) =
      some [] := rfl
  rw [ofVar?, Datum.freeFields?_record, hfields]
  rfl

theorem ofApply?_apply (read : Node → Option (Formula Float)) (op : Operator) (args : List Datum) :
    ofApply? read (entriesKeeping kept [("apply", .text op.text), ("args", .list args)]) =
      ((nodesKeeping kept args).mapM read).map (apply op) := by
  have hfields : Fields.ofEntries? ["apply", "args"]
      (Datum.fieldsKeeping kept [("apply", .text op.text), ("args", .list args)]) =
        some [("apply", .leaf (.ofText op.text)), ("args", .list (nodesKeeping kept args))] := rfl
  have hop : Operator.ofNode? (.leaf (.ofText op.text)) = some op := Operator.ofText?_text op
  rw [ofApply?, Datum.freeFields?_record, hfields]
  change (Operator.ofNode? (.leaf (.ofText op.text))).bind (fun op =>
    ((nodesKeeping kept args).mapM read).bind fun args => some (apply op args)) = _
  rw [hop, Option.bind_some]
  cases (nodesKeeping kept args).mapM read <;> rfl

mutual

/-- A formula is read back as it was if all its literals are kept, and not at all otherwise: what is
written for one kind of formula does not fit the kinds tried before it. -/
theorem within?_datum (f : Formula Float) {levels : Nat}
    (h : (f.datum.nodeKeeping kept).depth ≤ levels) :
    within? levels (f.datum.nodeKeeping kept) = if f.keeps kept then some f else none := by
  match f, levels with
  | .number x, levels =>
      rw [datum, nodeKeeping, within?.eq_def]
      exact ofLeaf?_ofKept x
  | .name varId, levels =>
      rw [datum, nodeKeeping, within?.eq_def]
      rfl
  | .const x, levels + 1 =>
      rw [datum, nodeKeeping, within?, ofConst?_record, keeps]
      cases kept x <;> rfl
  | .var varId, levels + 1 => rfl
  | .apply op args, levels + 1 =>
      have hargs : Node.depthOfItems (nodesKeeping kept (data args)) ≤ levels := by
        simp only [datum, nodeKeeping, entriesKeeping, Node.depth, Node.depthOfEntries] at h
        omega
      rw [datum, nodeKeeping, within?, ofConst?_apply, ofVar?_apply, ofApply?_apply,
        mapM_within?_data args hargs, keeps]
      cases allKeep kept args <;> rfl

theorem mapM_within?_data (fs : List (Formula Float)) {levels : Nat}
    (h : Node.depthOfItems (nodesKeeping kept (data fs)) ≤ levels) :
    (nodesKeeping kept (data fs)).mapM (within? levels) = if allKeep kept fs then some fs else none := by
  match fs with
  | [] => rfl
  | f :: rest =>
      rw [data, nodesKeeping, Node.depthOfItems] at h
      rw [data, nodesKeeping, List.mapM_cons, within?_datum f (by omega),
        mapM_within?_data rest (by omega), allKeep]
      cases f.keeps kept
      · rfl
      · cases allKeep kept rest <;> rfl

end

theorem ofNode?_datum (f : Formula Float) :
    ofNode? (f.datum.nodeKeeping kept) = if f.keeps kept then some f else none := by
  rw [ofNode?, if_pos (Datum.nodeKeeping_isFree kept f.datum), within?_datum f (Nat.le_refl _)]

end Formula

section Lists

variable {β γ : Type}

/-- Items that are each read by themselves are all read if each can be. -/
theorem mapM_of_each {f : β → Option γ} {ok : β → Bool} {g : β → γ}
    (h : ∀ x, f x = if ok x then some (g x) else none) (xs : List β) :
    xs.mapM f = if xs.all ok then some (xs.map g) else none := by
  induction xs with
  | nil => rfl
  | cons x xs ih =>
      rw [List.mapM_cons, h, ih, List.all_cons]
      cases ok x
      · rfl
      · cases xs.all ok <;> rfl

variable {kept : Float → Bool}

theorem bind_if {c : Prop} [Decidable c] (x : β) (f : β → Option γ) :
    (if c then some x else none).bind f = if c then f x else none := by
  split <;> rfl

theorem bind_of_some {x : Option β} {b : β} (h : x = some b) (f : β → Option γ) : (x >>= f) = f b := by
  rw [h]
  rfl

theorem listOf?_list {read : Node → Option γ} {write : β → Datum} {ok : β → Bool} {g : β → γ}
    (h : ∀ x, read ((write x).nodeKeeping kept) = if ok x then some (g x) else none) (xs : List β) :
    Node.listOf? read ((Datum.list (xs.map write)).nodeKeeping kept) =
      if xs.all ok then some (xs.map g) else none := by
  change (Datum.nodesKeeping kept (xs.map write)).mapM read = _
  rw [Datum.nodesKeeping_eq_map, List.map_map, List.mapM_map]
  exact mapM_of_each h xs

theorem listOf?_texts {read : Node → Option String} (h : ∀ s, read (.leaf (.ofText s)) = some s)
    (xs : List String) : Node.listOf? read ((texts xs).nodeKeeping kept) = some xs := by
  have hread : ∀ s, read ((Datum.text s).nodeKeeping kept) = if true then some (id s) else none := h
  rw [texts, listOf?_list hread, List.all_eq_true.mpr fun _ _ => rfl, List.map_id]
  rfl

theorem real?_ofKept (x : Float) :
    Node.real? (.leaf (.ofKept kept x)) = if kept x then some x else none := by
  rw [Leaf.ofKept]
  cases kept x <;> rfl

theorem freeReal?_ofKept (x : Float) :
    Node.freeReal? (.leaf (.ofKept kept x)) = if kept x then some x else none := by
  rw [Leaf.ofKept]
  cases kept x <;> rfl

theorem listOf?_reals {read : Node → Option Float}
    (h : ∀ x, read (.leaf (.ofKept kept x)) = if kept x then some x else none) (xs : List Float) :
    Node.listOf? read ((reals xs).nodeKeeping kept) = if xs.all kept then some xs else none := by
  rw [reals, listOf?_list (g := id) h, List.map_id]

end Lists

namespace TableSource

/-- Every value of a table of the function's own is kept. -/
def keeps (kept : Float → Bool) : TableSource Float → Bool
  | shared _ => true
  | own _ values => values.all kept

variable {kept : Float → Bool}

theorem ofNode?_datum (t : TableSource Float) :
    ofNode? (t.datum.nodeKeeping kept) = if t.keeps kept then some t else none := by
  rw [ofNode?.eq_def, Datum.nodeKeeping_isFree]
  cases t with
  | shared id => rfl
  | own axes values =>
      have hfields : Fields.ofEntries? ["axes", "values"]
          (Datum.fieldsKeeping kept [("axes", texts axes), ("values", reals values)]) =
            some [("axes", (texts axes).nodeKeeping kept), ("values", (reals values).nodeKeeping kept)] :=
        rfl
      have haxes : Node.freeListOf? Node.freeText? ((texts axes).nodeKeeping kept) = some axes :=
        listOf?_texts (fun _ => rfl) axes
      have hvalues : Node.freeListOf? Node.freeReal? ((reals values).nodeKeeping kept) =
          if values.all kept then some values else none := listOf?_reals freeReal?_ofKept values
      simp only [datum, Datum.nodeKeeping, Datum.freeFields?_record, hfields, Bool.not_true,
        Bool.false_eq_true, ↓reduceIte, Option.bind_eq_bind, Option.bind_some]
      change (Node.freeListOf? Node.freeText? ((texts axes).nodeKeeping kept)).bind (fun axes =>
        (Node.freeListOf? Node.freeReal? ((reals values).nodeKeeping kept)).bind fun values =>
          some (own axes values)) = _
      rw [haxes, hvalues, keeps, Option.bind_some]
      cases values.all kept <;> rfl

end TableSource

section Fields

open Datum (nodeKeeping)

variable (kept : Float → Bool) {fields : Fields} {name : String}

theorem required_text {s : String} (h : fields.lookup name = some (nodeKeeping kept (.text s))) :
    fields.required name Node.text? = some s := by
  rw [Fields.required, h]
  rfl

theorem defaulted_text {s missing : String} (h : fields.lookup name = some (nodeKeeping kept (.text s))) :
    fields.defaulted name missing Node.text? = some s := by
  rw [Fields.defaulted, h]
  rfl

theorem defaulted_flag {b missing : Bool} (h : fields.lookup name = some (nodeKeeping kept (.flag b))) :
    fields.defaulted name missing Node.flag? = some b := by
  rw [Fields.defaulted, h]
  rfl

theorem optional_text {value : Option String}
    (h : fields.lookup name = (value.map Datum.text).map (nodeKeeping kept)) :
    fields.optional name Node.text? = some value := by
  rw [Fields.optional, h]
  cases value <;> rfl

/-- A real that is not kept is read as missing where it may be missing. -/
theorem optional_real {value : Option Float}
    (h : fields.lookup name = (value.map Datum.real).map (nodeKeeping kept)) :
    fields.optional name Node.real? = some (value.filter kept) := by
  rw [Fields.optional, h]
  cases value with
  | none => rfl
  | some x =>
      rw [Option.map_some, Option.map_some, nodeKeeping, Leaf.ofKept, Option.filter_some]
      cases kept x <;> rfl

variable {kept}

theorem absent?_datum (f : Formula Float) :
    (f.datum.nodeKeeping kept).absent? = some (f.isLost kept) := by
  cases f with
  | number x =>
      rw [Formula.datum, Datum.nodeKeeping, Leaf.ofKept, Formula.isLost]
      cases kept x <;> rfl
  | _ => rfl

/-- A formula that is lost is read as missing; of any other, every literal must be kept. -/
theorem optional_formula {value : Option (Formula Float)}
    (h : fields.lookup name = (value.map Formula.datum).map (nodeKeeping kept)) :
    fields.optional name Formula.ofNode? =
      if value.all fun f => f.isLost kept || f.keeps kept then
        some (value.filter fun f => !f.isLost kept)
      else none := by
  rw [Fields.optional, h]
  cases value with
  | none => rfl
  | some f =>
      rw [Option.map_some, Option.map_some, Option.filter_some, Option.all_some]
      dsimp only
      rw [absent?_datum, Formula.ofNode?_datum]
      cases f.isLost kept
      · cases f.keeps kept <;> rfl
      · rfl

end Fields

namespace Document

variable (kept : Float → Bool)

/-- What is read back of a variable: reals that may be missing, and a calculation that is no more than a
literal, are missing where they are not kept. -/
def Variable.keptOnly (v : Variable Float) : Variable Float :=
  { v with
    initial := v.initial.filter kept
    min := v.min.filter kept
    max := v.max.filter kept
    calculation := v.calculation.filter fun f => !f.isLost kept }

def Variable.keeps (v : Variable Float) : Bool :=
  v.calculation.all fun f => f.isLost kept || f.keeps kept

/-- What is read back of a document. -/
def keptOnly (doc : Document Float) : Document Float :=
  { doc with vars := doc.vars.map (Variable.keptOnly kept) }

/-- Every real that may not be missing is kept. -/
def keeps (doc : Document Float) : Bool :=
  doc.vars.all (Variable.keeps kept) && doc.breakpoints.all (fun b => b.values.all kept)
    && doc.tables.all (fun t => t.values.all kept) && doc.functions.all (fun f => f.table.keeps kept)

variable {kept}

/-- The fields of a variable, in the order in which they are written. -/
def Variable.parts (v : Variable Float) : List (String × Option Datum) :=
  [("var_id", some (.text v.varId)), ("name", v.name.map .text), ("units", some (.text v.units)),
   ("initial_value", v.initial.map .real), ("min", v.min.map .real), ("max", v.max.map .real),
   ("input", some (.flag v.roles.input)), ("output", some (.flag v.roles.output)),
   ("control", some (.flag v.roles.control)), ("disturbance", some (.flag v.roles.disturbance)),
   ("state", some (.flag v.roles.state)), ("state_deriv", some (.flag v.roles.stateDeriv)),
   ("calculation", v.calculation.map Formula.datum)]

theorem Variable.datum_eq (v : Variable Float) : v.datum = .record (Datum.present v.parts) := by
  simp only [Variable.parts, Datum.present_some, Datum.present_map, Datum.present_nil, Variable.datum,
    List.append_assoc, List.cons_append, List.nil_append, List.append_nil]

theorem Variable.ofNode?_datum (positional : Bool) (v : Variable Float) :
    Variable.ofNode? positional (v.datum.nodeKeeping kept) =
      if v.keeps kept then some (v.keptOnly kept) else none := by
  have hnames : v.parts.map Prod.fst = variableFields := rfl
  obtain ⟨fields, hfields, hlookup⟩ := Datum.read_record hnames (by decide) positional
  rw [← Variable.datum_eq] at hfields
  have hvar : fields.required "var_id" Node.text? = some v.varId := required_text kept (hlookup _)
  have hname : fields.optional "name" Node.text? = some v.name := optional_text kept (hlookup _)
  have hunits : fields.defaulted "units" "" Node.text? = some v.units := defaulted_text kept (hlookup _)
  have hinitial : fields.optional "initial_value" Node.real? = some (v.initial.filter kept) :=
    optional_real kept (hlookup _)
  have hmin : fields.optional "min" Node.real? = some (v.min.filter kept) := optional_real kept (hlookup _)
  have hmax : fields.optional "max" Node.real? = some (v.max.filter kept) := optional_real kept (hlookup _)
  have hinput : fields.defaulted "input" false Node.flag? = some v.roles.input :=
    defaulted_flag kept (hlookup _)
  have houtput : fields.defaulted "output" false Node.flag? = some v.roles.output :=
    defaulted_flag kept (hlookup _)
  have hcontrol : fields.defaulted "control" false Node.flag? = some v.roles.control :=
    defaulted_flag kept (hlookup _)
  have hdisturbance : fields.defaulted "disturbance" false Node.flag? = some v.roles.disturbance :=
    defaulted_flag kept (hlookup _)
  have hstate : fields.defaulted "state" false Node.flag? = some v.roles.state :=
    defaulted_flag kept (hlookup _)
  have hderivative : fields.defaulted "state_deriv" false Node.flag? = some v.roles.stateDeriv :=
    defaulted_flag kept (hlookup _)
  have hcalculation : fields.optional "calculation" Formula.ofNode? =
      if v.keeps kept then some (v.calculation.filter fun f => !f.isLost kept) else none :=
    optional_formula (hlookup _)
  rw [Variable.ofNode?, hfields]
  refine (bind_of_some hvar _).trans ?_
  refine (bind_of_some hname _).trans ?_
  refine (bind_of_some hunits _).trans ?_
  refine (bind_of_some hinitial _).trans ?_
  refine (bind_of_some hmin _).trans ?_
  refine (bind_of_some hmax _).trans ?_
  refine (bind_of_some hinput _).trans ?_
  refine (bind_of_some houtput _).trans ?_
  refine (bind_of_some hcontrol _).trans ?_
  refine (bind_of_some hdisturbance _).trans ?_
  refine (bind_of_some hstate _).trans ?_
  refine (bind_of_some hderivative _).trans ?_
  rw [hcalculation]
  cases v.keeps kept <;> rfl

theorem Breakpoints.ofNode?_datum (positional : Bool) (b : Breakpoints Float) :
    Breakpoints.ofNode? positional (b.datum.nodeKeeping kept) =
      if b.values.all kept then some b else none := by
  have hfields : (b.datum.nodeKeeping kept).fields? positional ["id", "units", "values"] =
      some (Datum.fieldsKeeping kept [("id", .text b.id), ("units", .text b.units), ("values", reals b.values)]) :=
    Datum.fields?_record (show List.Nodup ["id", "units", "values"] by decide) (List.Sublist.refl _) positional
  have hvalues : Node.listOf? Node.real? ((reals b.values).nodeKeeping kept) =
      if b.values.all kept then some b.values else none := listOf?_reals real?_ofKept b.values
  rw [Breakpoints.ofNode?, hfields]
  change (Node.listOf? Node.real? ((reals b.values).nodeKeeping kept)).bind
    (fun values => some ({ id := b.id, units := b.units, values } : Breakpoints Float)) = _
  rw [hvalues]
  split <;> rfl

theorem Grid.ofNode?_datum (positional : Bool) (t : Grid Float) :
    Grid.ofNode? positional (t.datum.nodeKeeping kept) =
      if t.values.all kept then some t else none := by
  have hfields : (t.datum.nodeKeeping kept).fields? positional ["id", "axes", "values"] =
      some (Datum.fieldsKeeping kept [("id", .text t.id), ("axes", texts t.axes), ("values", reals t.values)]) :=
    Datum.fields?_record (show List.Nodup ["id", "axes", "values"] by decide) (List.Sublist.refl _) positional
  have haxes : Node.listOf? Node.text? ((texts t.axes).nodeKeeping kept) = some t.axes :=
    listOf?_texts (fun _ => rfl) t.axes
  have hvalues : Node.listOf? Node.real? ((reals t.values).nodeKeeping kept) =
      if t.values.all kept then some t.values else none := listOf?_reals real?_ofKept t.values
  rw [Grid.ofNode?, hfields]
  change (Node.listOf? Node.text? ((texts t.axes).nodeKeeping kept)).bind (fun axes =>
    (Node.listOf? Node.real? ((reals t.values).nodeKeeping kept)).bind
      fun values => some ({ id := t.id, axes, values } : Grid Float)) = _
  rw [haxes, hvalues, Option.bind_some]
  split <;> rfl

theorem Function.ofNode?_datum (positional : Bool) (f : Function Float) :
    Function.ofNode? positional (f.datum.nodeKeeping kept) =
      if f.table.keeps kept then some f else none := by
  have hfields : (f.datum.nodeKeeping kept).fields? positional functionFields =
      some (Datum.fieldsKeeping kept [("name", .text f.name), ("inputs", texts f.inputs),
        ("output", .text f.output), ("table", f.table.datum)]) :=
    Datum.fields?_record (show List.Nodup functionFields by decide) (List.Sublist.refl _) positional
  have hinputs : Node.listOf? Node.text? ((texts f.inputs).nodeKeeping kept) = some f.inputs :=
    listOf?_texts (fun _ => rfl) f.inputs
  rw [Function.ofNode?, hfields]
  change (Node.listOf? Node.text? ((texts f.inputs).nodeKeeping kept)).bind (fun inputs =>
    (TableSource.ofNode? (f.table.datum.nodeKeeping kept)).bind
      fun table => some ({ name := f.name, inputs, output := f.output, table } : Function Float)) = _
  rw [hinputs, TableSource.ofNode?_datum, Option.bind_some]
  split <;> rfl

/-- The fields of a document, in the order in which they are written. -/
def parts (doc : Document Float) : List (String × Option Datum) :=
  [("version", some (.natural doc.version)), ("name", some (.text doc.name)),
   ("description", doc.description.map .text),
   ("variables", some (.list (doc.vars.map Variable.datum))),
   ("breakpoints", some (.list (doc.breakpoints.map Breakpoints.datum))),
   ("tables", some (.list (doc.tables.map Grid.datum))),
   ("functions", some (.list (doc.functions.map Function.datum)))]

theorem datum_eq (doc : Document Float) : doc.datum = .record (Datum.present doc.parts) := by
  simp only [parts, Datum.present_some, Datum.present_map, Datum.present_nil, datum, List.cons_append,
    List.nil_append]

theorem defaulted_list {β : Type} {read : Node → Option β} {write : β → Datum} {ok : β → Bool} {g : β → β}
    (h : ∀ x, read ((write x).nodeKeeping kept) = if ok x then some (g x) else none) {xs : List β}
    {fields : Fields} {name : String}
    (hlookup : fields.lookup name = some ((Datum.list (xs.map write)).nodeKeeping kept)) :
    fields.defaulted name [] (Node.listOf? read) = if xs.all ok then some (xs.map g) else none := by
  rw [Fields.defaulted, hlookup]
  exact listOf?_list h xs

/-- A document is read back from its data if every real that may not be missing is kept, and then it is
the document that was written, apart from what was not kept. -/
theorem ofNode?_datum {doc : Document Float} (hversion : doc.version < halfWordSize) (positional : Bool) :
    Document.ofNode? positional (doc.datum.nodeKeeping kept) =
      if doc.keeps kept then some (doc.keptOnly kept) else none := by
  have hnames : doc.parts.map Prod.fst = documentFields := rfl
  obtain ⟨fields, hfields, hlookup⟩ := Datum.read_record hnames (by decide) positional
  rw [← datum_eq] at hfields
  have hnumber : fields.required "version" version? = some doc.version := by
    have hread : version? (.leaf (.ofNatural doc.version)) = some doc.version :=
      (Option.filter_some ..).trans (if_pos (decide_eq_true hversion))
    rw [Fields.required, hlookup]
    exact hread
  have hname : fields.required "name" Node.text? = some doc.name := required_text kept (hlookup _)
  have hdescription : fields.optional "description" Node.text? = some doc.description :=
    optional_text kept (hlookup _)
  have hvars : fields.defaulted "variables" [] (Node.listOf? (Variable.ofNode? positional)) =
      if doc.vars.all (Variable.keeps kept) then some (doc.vars.map (Variable.keptOnly kept)) else none :=
    defaulted_list (Variable.ofNode?_datum positional) (hlookup _)
  have hbreakpoints : fields.defaulted "breakpoints" [] (Node.listOf? (Breakpoints.ofNode? positional)) =
      if doc.breakpoints.all (fun b => b.values.all kept) then some (doc.breakpoints.map id) else none :=
    defaulted_list (Breakpoints.ofNode?_datum positional) (hlookup _)
  have htables : fields.defaulted "tables" [] (Node.listOf? (Grid.ofNode? positional)) =
      if doc.tables.all (fun t => t.values.all kept) then some (doc.tables.map id) else none :=
    defaulted_list (Grid.ofNode?_datum positional) (hlookup _)
  have hfunctions : fields.defaulted "functions" [] (Node.listOf? (Function.ofNode? positional)) =
      if doc.functions.all (fun f => f.table.keeps kept) then some (doc.functions.map id) else none :=
    defaulted_list (Function.ofNode?_datum positional) (hlookup _)
  simp only [Document.ofNode?, hfields, hnumber, hname, hdescription, hvars, hbreakpoints, htables,
    hfunctions, List.map_id, Option.bind_eq_bind, Option.bind_some, bind_if]
  simp only [Document.keeps, Bool.and_eq_true, and_assoc, ite_and]
  rfl

end Document

section Everything

mutual

theorem Formula.keeps_everything (f : Formula Float) : f.keeps (fun _ => true) = true := by
  cases f with
  | apply op args => exact Formula.allKeep_everything args
  | _ => rfl

theorem Formula.allKeep_everything (fs : List (Formula Float)) :
    Formula.allKeep (fun _ => true) fs = true := by
  cases fs with
  | nil => rfl
  | cons f rest =>
      rw [Formula.allKeep, Formula.keeps_everything f, Formula.allKeep_everything rest]
      rfl

end

theorem TableSource.keeps_everything (t : TableSource Float) : t.keeps (fun _ => true) = true := by
  cases t with
  | shared id => rfl
  | own axes values => exact List.all_eq_true.mpr fun _ _ => rfl

namespace Document

theorem Variable.keeps_everything (v : Variable Float) : v.keeps (fun _ => true) = true := by
  rw [Variable.keeps]
  cases v.calculation with
  | none => rfl
  | some f =>
      rw [Option.all_some, Formula.keeps_everything]
      exact Bool.or_true _

theorem Variable.keptOnly_everything (v : Variable Float) : v.keptOnly (fun _ => true) = v := by
  have hlost : ∀ f : Formula Float, (!f.isLost fun _ => true) = true := by
    intro f
    cases f <;> rfl
  have hall : ∀ {β : Type} (value : Option β), value.filter (fun _ => true) = value := by
    intro β value
    cases value <;> rfl
  simp only [Variable.keptOnly, hlost, hall]

theorem keeps_everything (doc : Document Float) : doc.keeps (fun _ => true) = true := by
  simp [keeps, Variable.keeps_everything, TableSource.keeps_everything]

theorem keptOnly_everything (doc : Document Float) : doc.keptOnly (fun _ => true) = doc := by
  have hvars : doc.vars.map (Variable.keptOnly fun _ => true) = doc.vars :=
    (List.map_congr_left fun v _ => v.keptOnly_everything).trans (List.map_id _)
  rw [keptOnly, hvars]

/-- Formulas, table sources and documents are read back from their data as they were written: every kind
of formula and of table source as itself, missing values as missing, in formats with and without
positional records. A version number is a word of 32 bits. -/
theorem encoding_round_trips :
    (∀ f : Formula Float, Formula.ofNode? f.datum.node = some f) ∧
      (∀ t : TableSource Float, TableSource.ofNode? t.datum.node = some t) ∧
      ∀ (doc : Document Float) (positional : Bool), doc.version < halfWordSize →
        Document.ofNode? positional doc.datum.node = some doc := by
  refine ⟨fun f => ?_, fun t => ?_, fun doc positional hversion => ?_⟩
  · rw [Datum.node_eq_nodeKeeping, Formula.ofNode?_datum, if_pos f.keeps_everything]
  · rw [Datum.node_eq_nodeKeeping, TableSource.ofNode?_datum, if_pos t.keeps_everything]
  · rw [Datum.node_eq_nodeKeeping, ofNode?_datum hversion, if_pos doc.keeps_everything,
      keptOnly_everything]

/-- A document with every kind of formula, in and out of arguments, and both kinds of table source. -/
def sampler : Document Float where
  version := 1
  name := "sampler"
  vars :=
    [ { varId := "x", name := some "X", min := some 0 },
      { varId := "y", calculation := some (.apply .piecewise
          [.number 1, .apply .not [.name "x"], .apply .plus [.const 2.5, .var "x"]]) },
      { varId := "z", calculation := some (.name "apply") } ]
  breakpoints := [{ id := "axis", values := [0, 1] }]
  tables := [{ id := "ramp", axes := ["axis"], values := [2, 3] }]
  functions :=
    [ { name := "f", inputs := ["x"], output := "u", table := .shared "ramp" },
      { name := "g", inputs := ["x"], output := "v", table := .own ["axis"] [4, 5] } ]

theorem sampler_round_trips : sampler.version < halfWordSize ∧
    Document.ofNode? true sampler.datum.node = some sampler := by
  have hversion : sampler.version < halfWordSize := by decide
  exact ⟨hversion, encoding_round_trips.2.2 sampler true hversion⟩

end Document

end Everything

end BlockDiagram
