import Orchids.Ovm.Accesses

/-!
# The core built-ins (`lang.c`) and the reads through `NULL`

The handlers of the functions of `issdl_function_g`, as what they do to the operand stack: what they
pop, what they push, and which of the popped pointers they follow. Their other effects (messages,
mails, marks on threads, the level of the event) are left out, and what a call finds outside the
stack is in `Site` (the same during an execution) and `World` (free at each call).

* `Stop`: why an instruction does not return; `deref` is the only way to look at what is behind a
  pointer without a test.
* `coreFunc`: the handlers; `coreInsn` and `coreStep`: the loop of `ovm_exec` with them.
* `coreInsn_toOption`: all other instructions are the ones of `Frame.insn`.
* `unguarded`: the operands that an instruction follows without a test; `nullRead_coreInsn`: it reads
  through `NULL` if and only if one of them is `NULL`.
* `coreInsn_stack`: an instruction pops some operands, and pushes values.
-/

namespace Orchids

/-- What `TYPE(x)` is, and the length of the data of a value (`issdl_get_data_len`). -/
class IssdlType (V : Type) where
  type : V → Nat
  dataLen : V → Nat

/-- The tags of `lang.h` that the built-ins compare with. -/
def tInt : Nat := 2
def tStr : Nat := 5
def tVstr : Nat := 6
def tCtime : Nat := 9
def tIpv4 : Nat := 10
def tRegex : Nat := 13

/-- Why a handler does not return. -/
inductive Stop where
  /-- A read through an operand that is `NULL`. -/
  | nullRead
  | exit
  /-- A read past the byte code, or behind the handlers of `ops_g`. -/
  | badCode
  /-- The machine traps in an arithmetic operation. -/
  | trap
  /-- `regexec` writes past the array `match`. -/
  | overrun
  /-- A read through `state`, or its `rule_instance`, that is `NULL`. -/
  | nullState
  deriving DecidableEq, Repr

/-- The functions of `issdl_function_g`. -/
inductive CoreFunc where
  | noop | print | dumpstack | printevent | dumppathtree | dropEvent | setEventLevel | report
  | shutdown | random | system | stats | strFromInt | intFromStr | strFromIpv4 | killThreads | cut
  | pastval | sendmail | sendmailReport | bindist | bytedist | vstrFromRegex | strFromRegex
  | regexFromStr | defined | difftime | strFromTime
  deriving DecidableEq, Repr

/-- `issdl_function_g`: the function and its `args_nb`. `register_lang_function` numbers them in
this order. -/
def issdlFunctionG : List (CoreFunc × Nat) :=
  [(.noop, 0), (.print, 1), (.dumpstack, 0), (.printevent, 0), (.dumppathtree, 0), (.dropEvent, 0),
   (.setEventLevel, 1), (.report, 0), (.shutdown, 0), (.random, 0), (.system, 0), (.stats, 0),
   (.strFromInt, 0), (.intFromStr, 0), (.strFromIpv4, 0), (.killThreads, 0), (.cut, 1),
   (.pastval, 2), (.sendmail, 4), (.sendmailReport, 4), (.bindist, 2), (.bytedist, 2),
   (.vstrFromRegex, 1), (.strFromRegex, 1), (.regexFromStr, 1), (.defined, 1), (.difftime, 1),
   (.strFromTime, 0)]

/-- What the handlers test of the state instance and its rule. -/
structure Site where
  /-- `state->event != NULL` -/
  event : Bool
  /-- `state->rule_instance != NULL` -/
  ruleInstance : Bool
  /-- `rule->dynamic_env_sz` -/
  dynamicEnvSz : Nat
  /-- The messages of `DebugLog` are printed. -/
  debugLog : Bool

/-- What a call finds in the world. -/
structure World (V : Type) where
  /-- This is the child that `fork` has made. -/
  child : Bool
  /-- `regcomp` accepts the string. -/
  regcomp : V → Bool
  /-- The value that a built-in makes from its arguments. -/
  make : CoreFunc → List V → V
  /-- How many operands a function that a module has registered pops, and what it pushes. -/
  modFunc : Nat → List (Option V) → Nat × List V

/-- The read of the type, the flags or the data behind a pointer. -/
def deref {V : Type} : Option V → Except Stop V
  | none => .error .nullRead
  | some v => .ok v

@[simp] theorem deref_some_bind {V α : Type} (v : V) (k : V → Except Stop α) :
    (deref (some v) >>= k) = k v := rfl

@[simp] theorem deref_none_bind {V α : Type} (k : V → Except Stop α) :
    (deref none >>= k) = .error .nullRead := rfl

/-! ## What stops with a read through `NULL` -/

/-- The computation reads through `NULL`. -/
def NullRead {α : Type} (x : Except Stop α) : Prop := x = .error .nullRead

section

variable {V α β : Type} {x : Except Stop α}

@[simp] theorem nullRead_pure (a : α) : NullRead (pure a : Except Stop α) ↔ False := by
  simp [NullRead, pure, Except.pure]

@[simp] theorem nullRead_error (e : Stop) :
    NullRead (.error e : Except Stop α) ↔ e = .nullRead := by
  simp [NullRead]

@[simp] theorem nullRead_map (f : α → β) : NullRead (f <$> x) ↔ NullRead x := by
  cases x <;> simp [NullRead, Functor.map, Except.map]

@[simp] theorem nullRead_deref_bind (p : Option V) (k : V → Except Stop α) :
    NullRead (deref p >>= k) ↔ p = none ∨ ∃ v, p = some v ∧ NullRead (k v) := by
  cases p <;> simp [NullRead, deref, bind, Except.bind]

@[simp] theorem nullRead_deref (p : Option V) : NullRead (deref p) ↔ p = none := by
  cases p <;> simp [NullRead, deref]

@[simp] theorem nullRead_ite (c : Prop) [Decidable c] (x y : Except Stop α) :
    NullRead (if c then x else y) ↔ if c then NullRead x else NullRead y := by
  split <;> rfl

/-- What the computation returns, if it does, has the property `P`. -/
def Yields {α : Type} (P : α → Prop) (x : Except Stop α) : Prop := ∀ a, x = .ok a → P a

variable {P : α → Prop}

@[simp] theorem yields_pure (a : α) : Yields P (pure a : Except Stop α) ↔ P a := by
  simp [Yields, pure, Except.pure]

@[simp] theorem yields_error (e : Stop) : Yields P (.error e : Except Stop α) := by
  simp [Yields]

@[simp] theorem yields_deref_bind (p : Option V) (k : V → Except Stop α) :
    Yields P (deref p >>= k) ↔ ∀ v, p = some v → Yields P (k v) := by
  cases p <;> simp [Yields, deref, bind, Except.bind]

@[simp] theorem yields_deref_map (p : Option V) (f : V → α) :
    Yields P (f <$> deref p) ↔ ∀ v, p = some v → P (f v) := by
  cases p <;> simp [Yields, deref, Functor.map, Except.map]

@[simp] theorem yields_ite (c : Prop) [Decidable c] (x y : Except Stop α) :
    Yields P (if c then x else y) ↔ if c then Yields P x else Yields P y := by
  split <;> rfl

theorem yields_bind {Q : β → Prop} {k : α → Except Stop β} (h : Yields P x)
    (hk : ∀ a, P a → Yields Q (k a)) : Yields Q (x >>= k) := by
  intro b hb
  cases x with
  | error e => cases hb
  | ok a => exact hk a (h a rfl) b hb

end

variable {V : Type} [Issdl V]

namespace Frame

variable (F : Frame V)

/-! ## Handlers -/

/-- `PUSH_RETURN_TRUE` and `PUSH_RETURN_FALSE` -/
def pushReturn (b : Bool) (s : List (Option V)) : List (Option V) := F.boolVar b :: s

variable [IssdlType V]

/-- A built-in that makes a string from a value of the type `t`, and returns `other` for another
type. -/
def fromTyped (w : World V) (f : CoreFunc) (t : Nat)
    (other : List (Option V) → List (Option V)) (s : List (Option V)) :
    Except Stop (List (Option V)) := do
  let (x, s) := stackPop s
  let v ← deref x
  if IssdlType.type v = t then return some (w.make f [v]) :: s
  else return other s

/-- `issdl_bindist` and `issdl_bytedist`: nothing is pushed for different types or sizes. -/
def distance (w : World V) (f : CoreFunc) (s : List (Option V)) :
    Except Stop (List (Option V)) := do
  let (param1, s) := stackPop s
  let (param2, s) := stackPop s
  let v1 ← deref param1
  let v2 ← deref param2
  if IssdlType.type v1 ≠ IssdlType.type v2 then return s
  else if IssdlType.dataLen v1 ≠ IssdlType.dataLen v2 then return s
  else return some (w.make f [v1, v2]) :: s

/-- `STR(x)` in the arguments of a `DebugLog`. -/
def logged (st : Site) (x : Option V) : Except Stop Unit :=
  if st.debugLog then do
    let _ ← deref x
  else return ()

/-- The handlers of the core built-ins. -/
def coreFunc (st : Site) (w : World V) (f : CoreFunc) (s : List (Option V)) :
    Except Stop (List (Option V)) :=
  match f with
  | .noop => return s
  | .print => return F.pushReturn true (stackPop s).2
  | .dumpstack => return F.pushReturn st.ruleInstance s
  | .printevent => return F.pushReturn true s
  | .dumppathtree =>
    if st.ruleInstance then return F.pushReturn true s else .error .nullState
  | .dropEvent => return F.pushReturn st.event s
  | .setEventLevel => do
    let (level, s) := stackPop s
    if st.event then
      let v ← deref level
      return F.pushReturn (IssdlType.type v == tInt) s
    else return F.pushReturn false s
  | .report => return F.pushReturn st.ruleInstance s
  -- the name of the rule is printed
  | .shutdown => if st.ruleInstance then .error .exit else .error .nullState
  | .random => return some (w.make .random []) :: s
  -- `param && param->type == T_STR`
  | .system => return F.pushReturn true (stackPop s).2
  | .stats => return F.pushReturn true s
  -- the empty string for another type
  | .strFromInt => do
    let (i, s) := stackPop s
    let v ← deref i
    return some (w.make .strFromInt [v]) :: s
  | .intFromStr => fromTyped w .intFromStr tStr (F.pushReturn false) s
  | .strFromIpv4 => fromTyped w .strFromIpv4 tIpv4 (F.pushReturn false) s
  | .killThreads => return F.pushReturn true s
  -- nothing is pushed for another type
  | .cut => do
    let (str, s) := stackPop s
    let v ← deref str
    if IssdlType.type v ≠ tStr then return s
    else return F.pushReturn true s
  -- "Clone the value, set the correct flags (if required) and push" is in a comment
  | .pastval => do
    let (varname, s) := stackPop s
    let (_, s) := stackPop s
    -- the name is compared with the ones of the rule, or printed when there are none
    if st.ruleInstance then
      if 0 < st.dynamicEnvSz then
        let _ ← deref varname
        return s
      else
        logged st varname
        return s
    else .error .nullState
  | .sendmail => do
    let (sender, s) := stackPop s
    let (sendTo, s) := stackPop s
    let (subject, s) := stackPop s
    let (body, s) := stackPop s
    logged st sender
    logged st sendTo
    logged st subject
    -- the mail is written in the child, which does not return
    if w.child then
      let _ ← deref sendTo
      let _ ← deref sender
      let _ ← deref subject
      let _ ← deref body
      .error .exit
    else return F.pushReturn true s
  | .sendmailReport => do
    let (sender, s) := stackPop s
    let (sendTo, s) := stackPop s
    let (subject, s) := stackPop s
    let (body, _) := stackPop s
    let _ ← deref sendTo
    let _ ← deref sender
    let _ ← deref subject
    let _ ← deref body
    -- the child exits, and the parent pushes the constant of the rule of `state`, which is `NULL`
    -- behind the loop to the root
    if w.child then .error .exit else .error .nullState
  | .bindist => distance w .bindist s
  | .bytedist => distance w .bytedist s
  | .vstrFromRegex => fromTyped w .vstrFromRegex tRegex id s
  | .strFromRegex => fromTyped w .strFromRegex tRegex id s
  | .regexFromStr => do
    let (str, s) := stackPop s
    let v ← deref str
    if (IssdlType.type v = tStr ∨ IssdlType.type v = tVstr) ∧ w.regcomp v then
      return some (w.make .regexFromStr [v]) :: s
    else return s
  -- `IS_NULL`
  | .defined =>
    let (field, s) := stackPop s
    return F.pushReturn (!isNull field) s
  | .difftime => do
    let (t1, s) := stackPop s
    let (t2, s) := stackPop s
    let v1 ← deref t1
    let v2 ← deref t2
    -- the types are joined bit by bit
    if IssdlType.type v1 &&& IssdlType.type v2 = tCtime then
      return some (w.make .difftime [v1, v2]) :: s
    else return F.pushReturn false s
  | .strFromTime => fromTyped w .strFromTime tCtime id s

/-! ## The loop of `ovm_exec` -/

/-- The handlers of `ops_g`, with the reads that are made without a test for `NULL`. -/
def coreInsn (st : Site) (w : World V) (op : Opcode) (m : Machine V) :
    Except Stop (Machine V) :=
  match op with
  | .call =>
    match F.operand m with
    | none => .error .badCode
    | some n =>
      match issdlFunctionG[n]? with
      | some (f, _) => do
        let s ← F.coreFunc st w f m.stack
        return { m with stack := s, ip := m.ip + 2 }
      | none =>
        let (k, vs) := w.modFunc n m.stack
        return { m with stack := vs.map some ++ m.stack.drop k, ip := m.ip + 2 }
  | .arith op => do
    let (op2, s) := stackPop m.stack
    let (op1, s) := stackPop s
    if arithTraps op op1 op2 then .error .trap
    else
      -- `IS_NOT_BOUND(op1)` and `IS_NOT_BOUND(op2)`, after the push
      let _ ← deref op1
      let _ ← deref op2
      return { m with stack := F.arithResult op op1 op2 :: s, ip := m.ip + 1 }
  | .regsplit => do
    let (pattern, s) := stackPop m.stack
    let (string, s) := stackPop s
    if isNull pattern && isNull string then return { m with stack := s, ip := m.ip + 1 }
    else
      let p ← deref pattern
      if Issdl.isSregex p then
        let v ← deref string
        let groups := (Issdl.regsplit p v).getD []
        if groups.length < matchSize then
          return { m with stack := groups.map some ++ s, ip := m.ip + 1 }
        else .error .overrun
      else return { m with stack := s, ip := m.ip + 1 }
  | op =>
    match F.insn op m with
    | none => .error .badCode
    | some m' => return m'

/-- One turn of the loop of `ovm_exec`. -/
def coreStep (st : Site) (w : World V) (m : Machine V) : Except Stop (Option (Machine V)) :=
  match F.bytecode[m.ip]? with
  | none => .error .badCode
  | some word =>
    if word = Opcode.opEnd then return none
    else if opcodeNum ≤ word then return none
    else
      match Opcode.ofWord word with
      | none => .error .badCode
      | some op => some <$> F.coreInsn st w op m

/-- Some turns of the loop, in any world. -/
def CoreReaches (st : Site) : Machine V → Machine V → Prop :=
  Relation.ReflTransGen fun m m' => ∃ w, F.coreStep st w m = .ok (some m')

/-! ## Operands -/

/-- The element `i` of the stack, from the top: what the pop number `i` gives. -/
def element (s : List (Option V)) (i : Nat) : Option V := s[i]?.join

omit [Issdl V] [IssdlType V] in
theorem stackPop_eq (s : List (Option V)) : stackPop s = (element s 0, s.tail) := by
  cases s <;> rfl

omit [Issdl V] [IssdlType V] in
theorem element_tail (s : List (Option V)) (i : Nat) : element s.tail i = element s (i + 1) := by
  cases s <;> simp [element]

/-- The operands whose type, flags or data a built-in reads without a test for `NULL`. -/
def coreReads (st : Site) (w : World V) : CoreFunc → List Nat
  | .setEventLevel => if st.event then [0] else []
  | .strFromInt | .intFromStr | .strFromIpv4 | .strFromTime | .cut => [0]
  | .vstrFromRegex | .strFromRegex | .regexFromStr => [0]
  | .pastval => if st.ruleInstance && (0 < st.dynamicEnvSz || st.debugLog) then [0] else []
  | .sendmail => if w.child then [0, 1, 2, 3] else if st.debugLog then [0, 1, 2] else []
  | .sendmailReport => [0, 1, 2, 3]
  | .bindist | .bytedist | .difftime => [0, 1]
  | _ => []

omit [Issdl V] [IssdlType V] in
@[simp] theorem nullRead_logged (st : Site) (x : Option V) :
    NullRead (logged st x) ↔ st.debugLog = true ∧ x = none := by
  simp [logged]

omit [Issdl V] [IssdlType V] in
@[simp] theorem nullRead_logged_bind {α : Type} (st : Site) (x : Option V)
    (k : Unit → Except Stop α) :
    NullRead (logged st x >>= k) ↔ (st.debugLog = true ∧ x = none) ∨ NullRead (k ()) := by
  cases hd : st.debugLog with
  | false => simp [logged, hd, bind, Except.bind, pure, Except.pure]
  | true => cases x <;> simp [logged, hd, deref, bind, Except.bind, pure, Except.pure, NullRead]

omit [Issdl V] [IssdlType V] in
@[simp] theorem yields_logged_bind {α : Type} {P : α → Prop} (st : Site) (x : Option V)
    (k : Unit → Except Stop α) :
    Yields P (logged st x >>= k) ↔ (st.debugLog = true → x ≠ none) → Yields P (k ()) := by
  cases hd : st.debugLog with
  | false => simp [logged, hd, bind, Except.bind, pure, Except.pure]
  | true => cases x <;> simp [logged, hd, deref, bind, Except.bind, pure, Except.pure, Yields]

omit [Issdl V] [IssdlType V] in
@[simp] theorem yields_logged_map {α : Type} {P : α → Prop} (st : Site) (x : Option V)
    (f : Unit → α) :
    Yields P (f <$> logged st x) ↔ (st.debugLog = true → x ≠ none) → P (f ()) := by
  rw [map_eq_pure_bind, yields_logged_bind, yields_pure]

/-- A built-in reads through `NULL` if and only if one of these operands is `NULL`. -/
theorem nullRead_coreFunc (st : Site) (w : World V) (f : CoreFunc) (s : List (Option V)) :
    NullRead (F.coreFunc st w f s) ↔ ∃ i ∈ coreReads st w f, element s i = none := by
  cases f with
  | pastval =>
    simp only [coreFunc, coreReads, stackPop_eq]
    cases hi : st.ruleInstance <;> cases hd : decide (0 < st.dynamicEnvSz) <;> simp_all
  | sendmail =>
    simp only [coreFunc, coreReads, stackPop_eq, element_tail]
    cases w.child <;> cases hd : st.debugLog <;>
      simp [hd, ← Option.ne_none_iff_exists'] <;> grind
  | sendmailReport | bindist | bytedist | difftime =>
    simp [coreFunc, coreReads, stackPop_eq, element_tail, distance, ← Option.ne_none_iff_exists']
    grind
  | _ => simp [coreFunc, coreReads, stackPop_eq, fromTyped]

/-- What the instruction at `m` reads without a test: positions on the stack. `IS_NULL` of both
operands comes before the type tests of a split, and the string is only looked at behind a regular
expression. -/
def unguarded (st : Site) (w : World V) (op : Opcode) (m : Machine V) : List Nat :=
  match op with
  | .call =>
    match (F.operand m).bind (issdlFunctionG[·]?) with
    | some (f, _) => coreReads st w f
    | none => []
  | .arith _ => [0, 1]
  | .regsplit =>
    if isNull (element m.stack 0) && isNull (element m.stack 1) then []
    else
      match element m.stack 0 with
      | some p => if Issdl.isSregex p then [1] else []
      | none => [0]
  | _ => []

/-- An instruction reads through `NULL` if and only if one of these operands is `NULL`. -/
theorem nullRead_coreInsn (st : Site) (w : World V) (op : Opcode) (m : Machine V) :
    NullRead (F.coreInsn st w op m) ↔ ∃ i ∈ F.unguarded st w op m, element m.stack i = none := by
  cases op with
  | call =>
    cases hn : F.operand m with
    | none => simp [coreInsn, unguarded, hn]
    | some n =>
      cases hf : issdlFunctionG[n]? with
      | none => simp [coreInsn, unguarded, hn, hf]
      | some r =>
        obtain ⟨f, k⟩ := r
        simp [coreInsn, unguarded, hn, hf, nullRead_coreFunc]
  | arith op =>
    simp only [coreInsn, unguarded, stackPop_eq, element_tail]
    cases h₁ : element m.stack 1 <;> cases h₀ : element m.stack 0 <;> simp [h₀, h₁]
  | regsplit =>
    simp only [coreInsn, unguarded, stackPop_eq, element_tail]
    cases hn : isNull (element m.stack 0) && isNull (element m.stack 1) with
    | true => simp
    | false =>
      cases hp : element m.stack 0 with
      | none => simp [hp]
      | some p => cases hs : Issdl.isSregex p <;> simp [hs]
  | _ =>
    simp only [coreInsn, unguarded]
    split <;> simp

/-- How many operands the handler of a built-in pops. -/
def corePops : CoreFunc → Nat
  | .print | .setEventLevel | .system | .cut | .defined => 1
  | .strFromInt | .intFromStr | .strFromIpv4 | .strFromTime => 1
  | .vstrFromRegex | .strFromRegex | .regexFromStr => 1
  | .pastval | .bindist | .bytedist | .difftime => 2
  | .sendmail | .sendmailReport => 4
  | _ => 0

/-- `k` operands are popped and values are pushed. -/
def Pushed (k : Nat) (s s' : List (Option V)) : Prop :=
  ∃ vs : List V, s' = vs.map some ++ s.drop k

/-- The entries of the static environment that `new_rule_compiler_ctx` makes are values. -/
def FirstStatics : Prop :=
  ∀ n ∈ [staticIds.one, staticIds.zero, staticIds.null, staticIds.paramError, staticIds.regexError],
    (F.staticEnv.get n).isSome

section

omit [Issdl V] [IssdlType V]

@[simp] theorem pushed_succ (k : Nat) (s s' : List (Option V)) :
    Pushed (k + 1) s s' ↔ Pushed k s.tail s' := by
  rw [Pushed, Pushed, ← List.drop_one, List.drop_drop, Nat.add_comm]

@[simp] theorem pushed_self (s : List (Option V)) : Pushed 0 s s := ⟨[], rfl⟩

@[simp] theorem pushed_some (s : List (Option V)) (v : V) : Pushed 0 s (some v :: s) := ⟨[v], rfl⟩

theorem pushed_of_isSome {s : List (Option V)} {x : Option V} (hx : x.isSome) :
    Pushed 0 s (x :: s) := by
  obtain ⟨v, rfl⟩ := Option.isSome_iff_exists.mp hx
  exact pushed_some s v

end

variable {F}

omit [IssdlType V] in
theorem FirstStatics.boolVar (h : F.FirstStatics) (b : Bool) : (F.boolVar b).isSome := by
  cases b <;> exact h _ (by simp)

/-- A built-in pops its operands and pushes values. -/
theorem yields_coreFunc (h : F.FirstStatics) (st : Site) (w : World V) (f : CoreFunc)
    (s : List (Option V)) : Yields (Pushed (corePops f) s) (F.coreFunc st w f s) := by
  have hb : ∀ (b : Bool) (s : List (Option V)), Pushed 0 s (F.pushReturn b s) :=
    fun b _ => pushed_of_isSome (h.boolVar b)
  cases f <;> simp [coreFunc, corePops, stackPop_eq, fromTyped, distance, hb]

variable (F) in
/-- How many operands an instruction pops. -/
def corePopsNb (w : World V) (op : Opcode) (m : Machine V) : Nat :=
  match op with
  | .call =>
    match F.operand m with
    | none => 0
    | some n =>
      match issdlFunctionG[n]? with
      | some (f, _) => corePops f
      | none => (w.modFunc n m.stack).1
  | op => F.popsNb op m

omit [IssdlType V]

theorem FirstStatics.arithResult (h : F.FirstStatics) (op : ArithOp) (op1 op2 : Option V) :
    (F.arithResult op op1 op2).isSome := by
  have hn : F.nullVar.isSome := h _ (by simp)
  unfold Frame.arithResult
  split
  · split
    · exact hn
    · split
      · rfl
      · exact hn
  · exact hn

theorem FirstStatics.cmpResult (h : F.FirstStatics) (op : CmpOp) (op1 op2 : Option V) :
    (F.cmpResult op op1 op2).isSome := by
  have hn : F.nullVar.isSome := h _ (by simp)
  have hp : (F.staticEnv.get staticIds.paramError).isSome := h _ (by simp)
  have hr : (F.staticEnv.get staticIds.regexError).isSome := h _ (by simp)
  have hb := h.boolVar
  unfold Frame.cmpResult
  grind

theorem FirstStatics.readVar (h : F.FirstStatics) (env : Env V) (n : Nat) :
    (F.readVar env n).isSome := by
  have hn : F.nullVar.isSome := h _ (by simp)
  unfold Frame.readVar
  grind

variable [IssdlType V]

/-- An instruction pops its operands and pushes values, except where it pushes a field or an entry
of the static environment. -/
theorem yields_coreInsn (h : F.FirstStatics) (st : Site) (w : World V) {op : Opcode}
    (m : Machine V) (hf : op ≠ .pushfield) (hs : op ≠ .pushstatic) :
    Yields (fun m' => Pushed (F.corePopsNb w op m) m.stack m'.stack) (F.coreInsn st w op m) := by
  cases op with
  | pushfield => exact (hf rfl).elim
  | pushstatic => exact (hs rfl).elim
  | call =>
    unfold coreInsn corePopsNb
    cases hn : F.operand m with
    | none => simp
    | some n =>
      cases hg : issdlFunctionG[n]? with
      | none => simp [hg, Pushed]
      | some r =>
        simp only [hg]
        exact yields_bind (yields_coreFunc h st w r.1 m.stack) fun s hs => (yields_pure _).mpr hs
  | arith op =>
    simp [coreInsn, corePopsNb, popsNb, stackPop_eq, pushed_of_isSome (h.arithResult _ _ _)]
  | regsplit =>
    have hg : ∀ (vs : List V) (s : List (Option V)), Pushed 0 s (vs.map some ++ s) :=
      fun vs s => ⟨vs, rfl⟩
    simp [coreInsn, corePopsNb, popsNb, stackPop_eq, hg]
  | push | pop | jmp =>
    cases hn : F.operand m with
    | none => simp [coreInsn, insn, hn]
    | some n =>
      have hr : Pushed 0 m.stack (F.readVar m.currentEnv n :: m.stack) :=
        pushed_of_isSome (h.readVar m.currentEnv n)
      simp [coreInsn, insn, corePopsNb, popsNb, stackPop_eq, hn, hr]
  | popcjmp =>
    cases hn : F.operand m with
    | none => simp [coreInsn, insn, hn]
    | some n =>
      cases ht : issdlTest (stackPop m.stack).1 <;>
        simp [coreInsn, insn, corePopsNb, popsNb, hn, ht] <;> simp [stackPop_eq]
  | _ =>
    simp [coreInsn, insn, corePopsNb, popsNb, stackPop_eq, pushed_of_isSome (h.cmpResult _ _ _)]

/-- The calls apart, these are the instructions of `Frame.insn`. -/
theorem toOption_coreInsn (hr : ∀ p v : V, Issdl.isSregex p = false → Issdl.regsplit p v = none)
    (st : Site) (w : World V) {op : Opcode} (hop : op ≠ .call) (m : Machine V) :
    (F.coreInsn st w op m).toOption = F.insn op m := by
  cases op with
  | call => exact (hop rfl).elim
  | arith op =>
    simp only [coreInsn, insn, stackPop_eq, arithEnds, isNotBoundDefined]
    cases h₁ : element m.stack.tail 0 with
    | none => cases element m.stack 0 <;> rfl
    | some v₁ =>
      cases element m.stack 0 with
      | none => rfl
      | some v₂ => cases ht : arithTraps op (some v₁) (some v₂) <;> rfl
  | regsplit =>
    simp only [coreInsn, insn, stackPop_eq, regsplitResult]
    cases isNull (element m.stack 0) && isNull (element m.stack.tail 0) with
    | true => rfl
    | false =>
      cases element m.stack 0 with
      | none => rfl
      | some p =>
        have hroom : 0 < matchSize := by decide
        cases hs : Issdl.isSregex p with
        | false =>
          cases element m.stack.tail 0 <;> simp [hs, hr, hroom, pure, Except.pure, Except.toOption]
        | true =>
          cases element m.stack.tail 0 with
          | none => simp [hs, Except.toOption]
          | some v =>
            simp only [hs, if_true, Bool.false_eq_true, if_false, deref_some_bind]
            split <;> rfl
  | _ =>
    simp only [coreInsn]
    split <;> simp_all <;> rfl

end Frame

end Orchids
