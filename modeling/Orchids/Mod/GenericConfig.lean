import Orchids.Cfg.Tree
import Orchids.Lib.Except
import Orchids.Lib.Linked
import Orchids.Lib.Lists
import Orchids.Util.StringUtil

/-!
# The hook sections of the generic module (`mod_generic.c`)

`add_hook` and `add_vmod`, with the lists of virtual modules that the hooks have. A virtual module has
one link for all lists; a head is in the array of the hooks, which is reallocated.

* `addHook`: a section, up to what its matches are.
* `TriesDeclared`: each list ends, and visits the modules that its section declares.
* `triesDeclared_iff`: so it is if and only if the same modules are declared after a module wherever
  it is declared.
-/

namespace Orchids

namespace Generic

/-! ## Sections -/

/-- Why there is no configuration. -/
inductive ConfigStop where
  /-- `bad directive` -/
  | badDirective
  /-- A module of this name is loaded. -/
  | loaded (name : CStr)
  /-- `add_fmatch` does not come back. -/
  | badMatch
  /-- `strdup(NULL)` -/
  | noArgs
  /-- A write to the array of the hooks where it was before. -/
  | stale

/-- What `stqh_last` points to. -/
inductive Place where
  /-- `stqh_first` of a hook, in an array at this address. -/
  | first (array hook : Nat)
  /-- The link of a virtual module. -/
  | next (vmod : Nat)

/-- `vmod_list` -/
structure VmodList where
  first : Option Nat
  last : Place

/-- `mod_generic_cfg_t`: a virtual module is its number, and has a name and a link. -/
structure ModCfg where
  array : Nat
  hooks : List VmodList
  names : List CStr
  next : Nat → Option Nat

/-- What the sections depend on: where `Xrealloc` puts an array of so many hooks, the modules that
are loaded, and the sections that `add_fmatch` accepts. -/
structure ConfigEnv where
  realloc : Nat → Nat
  loaded : CStr → Bool
  fmatch : Cfg.Directive → Bool

namespace ModCfg

/-- `generic_preconfig` -/
def init : ModCfg := { array := 0, hooks := [], names := [], next := fun _ => none }

/-- `STAILQ_INSERT_TAIL(&h->vmod_list, vmod, vmods)` -/
def insertTail (cfg : ModCfg) (h vmod : Nat) : Except ConfigStop ModCfg :=
  let next := Function.update cfg.next vmod none
  let setLast (hooks : List VmodList) := hooks.modify h ({ · with last := .next vmod })
  match cfg.hooks[h]? with
  | none => .error .stale
  | some ⟨_, .first array hook⟩ =>
    if array = cfg.array then
      .ok { cfg with
        next, hooks := setLast (cfg.hooks.modify hook ({ · with first := some vmod })) }
    else .error .stale
  | some ⟨_, .next w⟩ =>
    .ok { cfg with next := Function.update next w (some vmod), hooks := setLast cfg.hooks }

end ModCfg

/-- The name in the argument, without its `>`. -/
def vmodName (args : CStr) : CStr := args.dropLast

/-- The virtual module of a name, which is made if there is none. -/
def findVmod (env : ConfigEnv) (cfg : ModCfg) (name : CStr) : Except ConfigStop (Nat × ModCfg) :=
  match cfg.names.idxOf? name with
  | some vmod => .ok (vmod, cfg)
  | none =>
    if env.loaded name then .error (.loaded name)
    else
      .ok (cfg.names.length,
        { cfg with
          names := cfg.names ++ [name], next := Function.update cfg.next cfg.names.length none })

/-- `add_vmod`, for a directive of the hook `h`. -/
def addVmod (env : ConfigEnv) (h : Nat) (cfg : ModCfg) : Cfg.Directive → Except ConfigStop ModCfg
  | .mk directive args _ _ children =>
    if directive ≠ ascii "<vmod" then throw .badDirective
    else
      match args with
      | none => throw .noArgs
      | some args => do
        let (vmod, cfg) ← findVmod env cfg (vmodName args)
        let cfg ← cfg.insertTail h vmod
        if children.all env.fmatch then return cfg else throw .badMatch

/-- `add_hook`, up to the module and the condition. -/
def addHook (env : ConfigEnv) (cfg : ModCfg) : Cfg.Directive → Except ConfigStop ModCfg
  | .mk _ _ _ _ children =>
    let h := cfg.hooks.length
    let array := env.realloc (h + 1)
    let hooks := cfg.hooks ++ [{ first := none, last := .first array h }]
    children.foldlM (addVmod env h) { cfg with array, hooks }

/-- The sections, one after the other. -/
def configure (env : ConfigEnv) (dirs : List Cfg.Directive) : Except ConfigStop ModCfg :=
  dirs.foldlM (addHook env) .init

/-! ## What is declared -/

/-- The name of the module that a directive declares. -/
def declaredName : Cfg.Directive → CStr
  | .mk _ args _ _ _ => vmodName (args.getD [])

/-- The modules that a section declares. -/
def declared : Cfg.Directive → List CStr
  | .mk _ _ _ _ children => children.map declaredName

/-- The numbers are those of the names. -/
def ModCfg.Named (cfg : ModCfg) (l : List Nat) (names : List CStr) : Prop :=
  List.Forall₂ (fun vmod name => cfg.names[vmod]? = some name) l names

/-- The list ends, and visits these modules. -/
def Tries (cfg : ModCfg) (q : VmodList) (names : List CStr) : Prop :=
  ∃ l, q.first = l.head? ∧ Linked cfg.next l ∧ cfg.Named l names

/-- Each hook tries the modules that its section declares. -/
def TriesDeclared (cfg : ModCfg) (dirs : List Cfg.Directive) : Prop :=
  List.Forall₂ (fun q dir => Tries cfg q (declared dir)) cfg.hooks dirs

/-- Wherever a module is declared, the same modules are declared after it. -/
def SameBehind (sections : List (List CStr)) : Prop :=
  ∀ s ∈ sections, ∀ s' ∈ sections, ∀ l name t l' t',
    s = l ++ name :: t → s' = l' ++ name :: t' → t = t'

/-! ## Names -/

section

variable {cfg cfg' : ModCfg} {l l' : List Nat} {names : List CStr}

theorem ModCfg.Named.mono (h : cfg.Named l names) (hp : cfg.names <+: cfg'.names) :
    cfg'.Named l names := by
  refine h.imp fun vmod name hname => ?_
  obtain ⟨more, hmore⟩ := hp
  rw [← hmore, List.getElem?_append_left (List.getElem?_eq_some_iff.mp hname).1]
  exact hname

/-- A name is that of one module. -/
theorem ModCfg.Named.unique (hnd : cfg.names.Nodup) (h : cfg.Named l names)
    (h' : cfg.Named l' names) : l = l' := by
  induction h generalizing l' with
  | nil =>
    cases h'
    rfl
  | @cons vmod name l names hname hl ih =>
    cases h' with
    | @cons vmod' _ l' _ hname' hl' =>
      obtain ⟨hlt, hget⟩ := List.getElem?_eq_some_iff.mp hname
      have hvmod : vmod = vmod' := (List.getElem?_inj hlt hnd).mp (hname.trans hname'.symm)
      rw [hvmod, ih hl']

/-- A module has one name. -/
theorem ModCfg.Named.names_unique {names' : List CStr} (h : cfg.Named l names)
    (h' : cfg.Named l names') : names = names' := by
  induction h generalizing names' with
  | nil =>
    cases h'
    rfl
  | cons hname _ ih =>
    cases h' with
    | cons hname' hl' => rw [Option.some.inj (hname.symm.trans hname'), ih hl']

/-- The names after a module. -/
theorem ModCfg.Named.split {vmod : Nat} {t : List Nat} (h : cfg.Named (l ++ vmod :: t) names) :
    ∃ names₁ name names₂, names = names₁ ++ name :: names₂ ∧ cfg.names[vmod]? = some name ∧
      cfg.Named t names₂ := by
  induction l generalizing names with
  | nil =>
    cases h with
    | @cons _ name _ names₂ hname ht => exact ⟨[], name, names₂, rfl, hname, ht⟩
  | cons a l ih =>
    cases h with
    | @cons _ n _ names' _ hl =>
      obtain ⟨names₁, name, names₂, rfl, hname, ht⟩ := ih hl
      exact ⟨n :: names₁, name, names₂, rfl, hname, ht⟩

/-- The modules after a name. -/
theorem ModCfg.Named.split_right {names₁ names₂ : List CStr} {name : CStr}
    (h : cfg.Named l (names₁ ++ name :: names₂)) :
    ∃ l₁ vmod l₂, l = l₁ ++ vmod :: l₂ ∧ cfg.names[vmod]? = some name ∧ cfg.Named l₂ names₂ := by
  induction names₁ generalizing l with
  | nil =>
    cases h with
    | @cons vmod _ l₂ _ hname ht => exact ⟨[], vmod, l₂, rfl, hname, ht⟩
  | cons n names₁ ih =>
    cases h with
    | @cons a _ l' _ _ hl =>
      obtain ⟨l₁, vmod, l₂, rfl, hname, ht⟩ := ih hl
      exact ⟨a :: l₁, vmod, l₂, rfl, hname, ht⟩

end

/-- A module that is declared twice in a section has the second declaration after the first. -/
theorem SameBehind.nodup {sections : List (List CStr)} (h : SameBehind sections) {s : List CStr}
    (hs : s ∈ sections) : s.Nodup := by
  have hsame := h s hs s hs
  clear h hs
  induction s with
  | nil => exact List.nodup_nil
  | cons name s ih =>
    refine List.nodup_cons.mpr ⟨fun hmem => ?_, ih fun l n t l' t' hl hl' => ?_⟩
    · obtain ⟨l₁, l₂, rfl⟩ := List.append_of_mem hmem
      have heq := congrArg List.length (hsame [] name (l₁ ++ name :: l₂) (name :: l₁) l₂ rfl rfl)
      simp only [List.length_append, List.length_cons] at heq
      omega
    · exact hsame (name :: l) n t (name :: l') t' (congrArg _ hl) (congrArg _ hl')

/-- A name that is in a list once has one tail behind it. -/
theorem tail_eq_of_nodup {l l' t t' : List CStr} {name : CStr}
    (hnd : (l ++ name :: t).Nodup) (heq : l ++ name :: t = l' ++ name :: t') : t = t' := by
  have hnd' := heq ▸ hnd
  rcases List.append_eq_append_iff.mp heq with ⟨c, rfl, hc⟩ | ⟨c, rfl, hc⟩
  · cases c with
    | nil => exact (List.cons.inj hc).2
    | cons a c =>
      obtain ⟨rfl, rfl⟩ := List.cons.inj hc
      exact absurd (List.mem_append_right c List.mem_cons_self)
        (List.nodup_cons.mp (List.Nodup.of_append_right hnd)).1
  · cases c with
    | nil => exact (List.cons.inj hc).2.symm
    | cons a c =>
      obtain ⟨rfl, rfl⟩ := List.cons.inj hc
      exact absurd (List.mem_append_right c List.mem_cons_self)
        (List.nodup_cons.mp (List.Nodup.of_append_right hnd')).1

/-- The sections that are ends of one list. -/
theorem sameBehind_of_suffix {all : List CStr} (hnd : all.Nodup) {sections : List (List CStr)}
    (hsuffix : ∀ s ∈ sections, s <:+ all) : SameBehind sections := by
  rintro s hs s' hs' l name t l' t' rfl rfl
  obtain ⟨p, hp⟩ := hsuffix _ hs
  obtain ⟨p', hp'⟩ := hsuffix _ hs'
  rw [← List.append_assoc] at hp hp'
  exact tail_eq_of_nodup (hp ▸ hnd) (hp.trans hp'.symm)

/-! ## Calls -/

section

variable {env : ConfigEnv} {cfg cfg' : ModCfg} {h : Nat}

/-- What `findVmod` gives, and what it leaves. -/
structure Found (cfg : ModCfg) (name : CStr) (vmod : Nat) (cfg' : ModCfg) : Prop where
  name : cfg'.names[vmod]? = some name
  names : cfg.names.Nodup → cfg'.names.Nodup
  grows : cfg.names <+: cfg'.names
  hooks : cfg'.hooks = cfg.hooks
  array : cfg'.array = cfg.array
  next : ∀ a < cfg.names.length, cfg'.next a = cfg.next a

theorem findVmod_ok {name : CStr} {vmod : Nat} (hrun : findVmod env cfg name = .ok (vmod, cfg')) :
    Found cfg name vmod cfg' := by
  rw [findVmod] at hrun
  split at hrun
  · rename_i v hfind
    cases hrun
    obtain ⟨hlt, hget, -⟩ := List.idxOf?_eq_some_iff.mp hfind
    exact ⟨List.getElem?_eq_some_iff.mpr ⟨hlt, hget⟩, id, List.prefix_refl _, rfl, rfl,
      fun _ _ => rfl⟩
  · rename_i hfind
    split at hrun
    · cases hrun
    · cases hrun
      have hnew : name ∉ cfg.names := List.idxOf?_eq_none_iff.mp hfind
      refine ⟨List.getElem?_concat_length, fun hnd => ?_, List.prefix_append _ _, rfl, rfl,
        fun a ha => ?_⟩
      · exact List.nodup_append.mpr ⟨hnd, List.nodup_singleton name, fun a ha b hb => by
          rw [List.mem_singleton.mp hb]
          rintro rfl
          exact hnew ha⟩
      · exact Function.update_of_ne (Nat.ne_of_lt ha) _ _

theorem findVmod_error {name : CStr} {e : ConfigStop} (hrun : findVmod env cfg name = .error e) :
    e ≠ .stale := by
  rw [findVmod] at hrun
  split at hrun
  · cases hrun
  · split at hrun
    · cases hrun
      nofun
    · cases hrun

/-- The list of the hook has no pointer to the array where it was before. -/
def Current (cfg : ModCfg) (h : Nat) : Prop :=
  ∃ q, cfg.hooks[h]? = some q ∧ ∀ array hook, q.last = .first array hook → array = cfg.array

theorem getElem?_modify_last {hooks : List VmodList} {q : VmodList} (hget : hooks[h]? = some q)
    (place : Place) :
    (hooks.modify h ({ · with last := place }))[h]? = some { q with last := place } := by
  rw [List.getElem?_modify, hget]
  simp

theorem insertTail_of_current (hc : Current cfg h) (vmod : Nat) :
    ∃ cfg', cfg.insertTail h vmod = .ok cfg' ∧ cfg'.names = cfg.names ∧ cfg'.array = cfg.array ∧
      Current cfg' h := by
  obtain ⟨⟨first, last⟩, hget, harray⟩ := hc
  rw [ModCfg.insertTail, hget]
  cases last with
  | first array hook =>
    dsimp only
    rw [if_pos (harray array hook rfl)]
    obtain ⟨q, hq⟩ : ∃ q, (cfg.hooks.modify hook ({ · with first := some vmod }))[h]? = some q := by
      rw [List.getElem?_modify, hget]
      exact ⟨_, rfl⟩
    exact ⟨_, rfl, rfl, rfl, _, getElem?_modify_last hq _, nofun⟩
  | next w => exact ⟨_, rfl, rfl, rfl, _, getElem?_modify_last hget _, nofun⟩

/-- A call of `add_vmod` that comes back. -/
theorem addVmod_ok {dir : Cfg.Directive} (hrun : addVmod env h cfg dir = .ok cfg') :
    ∃ vmod cfg₁, Found cfg (declaredName dir) vmod cfg₁ ∧ cfg₁.insertTail h vmod = .ok cfg' := by
  obtain ⟨directive, args, file, line, children⟩ := dir
  rw [addVmod.eq_def] at hrun
  dsimp only at hrun
  split at hrun
  · cases hrun
  · cases args with
    | none => cases hrun
    | some args =>
      obtain ⟨⟨vmod, cfg₁⟩, hfind, hrun⟩ := bind_ok hrun
      obtain ⟨cfg₂, hinsert, hrun⟩ := bind_ok hrun
      dsimp only at hinsert
      split at hrun
      · cases hrun
        exact ⟨vmod, cfg₁, findVmod_ok hfind, hinsert⟩
      · cases hrun

theorem Found.current {name : CStr} {vmod : Nat} (hfound : Found cfg name vmod cfg')
    (hc : Current cfg h) : Current cfg' h := by
  rw [Current, hfound.hooks, hfound.array]
  exact hc

/-- The pointers of the list of the current hook are to the array where it is. -/
theorem addVmod_of_current (hc : Current cfg h) (dir : Cfg.Directive) :
    (∀ e, addVmod env h cfg dir = .error e → e ≠ .stale) ∧
      ∀ cfg', addVmod env h cfg dir = .ok cfg' → Current cfg' h := by
  constructor
  · intro e hrun
    obtain ⟨directive, args, file, line, children⟩ := dir
    rw [addVmod.eq_def] at hrun
    dsimp only at hrun
    split at hrun
    · cases hrun
      nofun
    · cases args with
      | none =>
        cases hrun
        nofun
      | some args =>
        dsimp only at hrun
        cases hfind : findVmod env cfg (vmodName args) with
        | error e' =>
          rw [hfind] at hrun
          cases hrun
          exact findVmod_error hfind
        | ok r =>
          obtain ⟨cfg₂, hinsert, -⟩ := insertTail_of_current ((findVmod_ok hfind).current hc) r.1
          rw [bind_of_ok hfind, bind_of_ok hinsert] at hrun
          split at hrun <;> cases hrun
          nofun
  · intro cfg' hrun
    obtain ⟨vmod, cfg₁, hfound, hinsert⟩ := addVmod_ok hrun
    obtain ⟨cfg₂, hinsert', -, -, hc'⟩ := insertTail_of_current (hfound.current hc) vmod
    rw [hinsert'] at hinsert
    exact Except.ok.inj hinsert ▸ hc'

theorem addVmods_not_stale (hc : Current cfg h) (dirs : List Cfg.Directive) (e : ConfigStop)
    (hrun : dirs.foldlM (addVmod env h) cfg = .error e) : e ≠ .stale := by
  induction dirs generalizing cfg with
  | nil => cases hrun
  | cons dir dirs ih =>
    obtain ⟨herror, hok⟩ := @addVmod_of_current env cfg h hc dir
    rw [List.foldlM_cons] at hrun
    cases hdir : addVmod env h cfg dir with
    | error e' =>
      rw [hdir] at hrun
      cases hrun
      exact herror e hdir
    | ok cfg₁ =>
      rw [bind_of_ok hdir] at hrun
      exact ih (hok cfg₁ hdir) hrun

/-- No write is to the array of the hooks where it was before. -/
theorem configure_not_stale (dirs : List Cfg.Directive) (e : ConfigStop)
    (hrun : dirs.foldlM (addHook env) cfg = .error e) : e ≠ .stale := by
  induction dirs generalizing cfg with
  | nil => cases hrun
  | cons dir dirs ih =>
    rw [List.foldlM_cons] at hrun
    cases hdir : addHook env cfg dir with
    | error e' =>
      rw [hdir] at hrun
      cases hrun
      obtain ⟨directive, args, file, line, children⟩ := dir
      refine addVmods_not_stale ?_ children e hdir
      exact ⟨_, List.getElem?_concat_length, fun array hook hplace => by cases hplace; rfl⟩
    | ok cfg₁ =>
      rw [bind_of_ok hdir] at hrun
      exact ih hrun

end

/-! ## A section -/

/-- The state within a section: the modules `s` are declared so far, and `l` are their numbers. -/
structure Building (cfg₀ cfg : ModCfg) (s : List CStr) (l : List Nat) : Prop where
  names : cfg.names.Nodup
  grows : cfg₀.names <+: cfg.names
  hooks : cfg.hooks = cfg₀.hooks ++ [{
    first := l.head?
    last := l.getLast?.elim (.first cfg.array cfg₀.hooks.length) .next }]
  linked : Linked cfg.next l
  named : cfg.Named l s
  frame : ∀ a ∉ l, a < cfg₀.names.length → cfg.next a = cfg₀.next a

section

variable {env : ConfigEnv} {cfg₀ cfg cfg' : ModCfg} {s : List CStr} {l : List Nat}

theorem modify_concat {α : Type} (xs : List α) (x : α) (f : α → α) :
    (xs ++ [x]).modify xs.length f = xs ++ [f x] := by
  induction xs with
  | nil => rfl
  | cons y xs ih => rw [List.cons_append, List.length_cons, List.modify_succ_cons, ih, List.cons_append]

theorem ModCfg.Named.mem (h : cfg.Named l s) {vmod : Nat} (hv : vmod ∈ l) :
    ∃ name ∈ s, cfg.names[vmod]? = some name := by
  obtain ⟨l₁, l₂, rfl⟩ := List.append_of_mem hv
  obtain ⟨s₁, name, s₂, rfl, hname, -⟩ := h.split
  exact ⟨name, List.mem_append_right _ List.mem_cons_self, hname⟩

theorem Building.lt (hb : Building cfg₀ cfg s l) {a : Nat} (ha : a ∈ l) : a < cfg.names.length := by
  obtain ⟨name, -, hname⟩ := hb.named.mem ha
  exact (List.getElem?_eq_some_iff.mp hname).1

theorem Building.addVmod (hb : Building cfg₀ cfg s l) {dir : Cfg.Directive}
    (hnew : declaredName dir ∉ s) (hrun : addVmod env cfg₀.hooks.length cfg dir = .ok cfg') :
    ∃ vmod, Building cfg₀ cfg' (s ++ [declaredName dir]) (l ++ [vmod]) := by
  obtain ⟨vmod, cfg₁, hfound, hinsert⟩ := addVmod_ok hrun
  have hnamed : cfg₁.Named l s := hb.named.mono hfound.grows
  have hnotin : vmod ∉ l := by
    intro hv
    obtain ⟨name, hname, hget⟩ := hnamed.mem hv
    rw [hfound.name] at hget
    exact hnew (Option.some.inj hget ▸ hname)
  have hqueue : IsQueue cfg₁.next l.head? l.getLast? l :=
    ⟨hb.linked.congr fun a ha => hfound.next a (hb.lt ha), rfl, rfl⟩
  have hpush := hqueue.push hnotin
  have hframe : ∀ a ∉ l ++ [vmod], a < cfg₀.names.length →
      setTail (Function.update cfg₁.next vmod none) l.getLast? (some vmod) a = cfg₀.next a := by
    intro a ha hlt
    rw [List.mem_append, List.mem_singleton, not_or] at ha
    rw [setTail_apply, if_neg fun h => ha.1 (List.mem_of_getLast? h.symm),
      Function.update_of_ne ha.2, hfound.next a (Nat.lt_of_lt_of_le hlt hb.grows.length_le)]
    exact hb.frame a ha.1 hlt
  have hnamed' : cfg₁.Named (l ++ [vmod]) (s ++ [declaredName dir]) :=
    List.rel_append hnamed (.cons hfound.name .nil)
  have hget : cfg₁.hooks[cfg₀.hooks.length]? = some {
      first := l.head?, last := l.getLast?.elim (.first cfg.array cfg₀.hooks.length) .next } := by
    rw [hfound.hooks, hb.hooks]
    exact List.getElem?_concat_length
  rw [ModCfg.insertTail, hget] at hinsert
  refine ⟨vmod, ?_⟩
  cases hlast : l.getLast? with
  | none =>
    obtain rfl := List.getLast?_eq_none_iff.mp hlast
    rw [hlast] at hinsert hpush hframe
    dsimp only [Option.elim] at hinsert
    rw [if_pos hfound.array.symm, hfound.hooks, hb.hooks] at hinsert
    cases hinsert
    refine ⟨hfound.names hb.names, hb.grows.trans hfound.grows, ?_, hpush.linked, hnamed', hframe⟩
    dsimp only
    rw [modify_concat, modify_concat]
    rfl
  | some w =>
    rw [hlast] at hinsert hpush hframe
    dsimp only [Option.elim] at hinsert
    rw [hfound.hooks, hb.hooks] at hinsert
    cases hinsert
    refine ⟨hfound.names hb.names, hb.grows.trans hfound.grows, ?_, hpush.linked, hnamed', hframe⟩
    dsimp only
    rw [modify_concat, List.getLast?_concat, ← hpush.head, List.head?_eq_some_head (List.ne_nil_of_mem
      (List.mem_of_getLast? hlast))]
    rfl

/-- A section whose modules are declared once. -/
theorem Building.addVmods {dirs : List Cfg.Directive} (hb : Building cfg₀ cfg s l)
    (hnd : (s ++ dirs.map declaredName).Nodup)
    (hrun : dirs.foldlM (Generic.addVmod env cfg₀.hooks.length) cfg = .ok cfg') :
    ∃ l', Building cfg₀ cfg' (s ++ dirs.map declaredName) l' := by
  induction dirs generalizing cfg s l with
  | nil =>
    cases hrun
    rw [List.map_nil, List.append_nil]
    exact ⟨l, hb⟩
  | cons dir dirs ih =>
    rw [List.foldlM_cons] at hrun
    obtain ⟨cfg₁, hdir, hrun⟩ := bind_ok hrun
    rw [List.map_cons, List.append_cons] at hnd ⊢
    have hnew : declaredName dir ∉ s := fun hmem =>
      (List.disjoint_of_nodup_append (List.Nodup.of_append_left hnd)) hmem List.mem_cons_self
    obtain ⟨vmod, hb'⟩ := hb.addVmod hnew hdir
    exact ih hb' hnd hrun

/-- The array of the hooks with a new one. -/
def newHook (env : ConfigEnv) (cfg : ModCfg) : ModCfg :=
  { cfg with
    array := env.realloc (cfg.hooks.length + 1)
    hooks := cfg.hooks ++ [{
      first := none, last := .first (env.realloc (cfg.hooks.length + 1)) cfg.hooks.length }] }

theorem addHook_ok {dir : Cfg.Directive} (hnames : cfg.names.Nodup) (hnd : (declared dir).Nodup)
    (hrun : addHook env cfg dir = .ok cfg') :
    ∃ l, Building cfg cfg' (declared dir) l := by
  obtain ⟨directive, args, file, line, children⟩ := dir
  have hb : Building cfg (newHook env cfg) [] [] :=
    ⟨hnames, List.prefix_refl _, rfl, trivial, .nil, fun _ _ _ => rfl⟩
  exact hb.addVmods hnd hrun

end

/-! ## All sections -/

section

variable {env : ConfigEnv} {cfg cfg' : ModCfg}

theorem names_insertTail {h vmod : Nat} (hrun : cfg.insertTail h vmod = .ok cfg') :
    cfg'.names = cfg.names := by
  rw [ModCfg.insertTail] at hrun
  dsimp only at hrun
  split at hrun
  · cases hrun
  · split at hrun <;> cases hrun
    rfl
  · cases hrun
    rfl

theorem names_addVmods {h : Nat} {dirs : List Cfg.Directive} (hnames : cfg.names.Nodup)
    (hrun : dirs.foldlM (addVmod env h) cfg = .ok cfg') : cfg'.names.Nodup := by
  induction dirs generalizing cfg with
  | nil =>
    cases hrun
    exact hnames
  | cons dir dirs ih =>
    rw [List.foldlM_cons] at hrun
    obtain ⟨cfg₁, hdir, hrun⟩ := bind_ok hrun
    obtain ⟨vmod, cfg₂, hfound, hinsert⟩ := addVmod_ok hdir
    exact ih (names_insertTail hinsert ▸ hfound.names hnames) hrun

theorem names_addHooks {dirs : List Cfg.Directive} (hnames : cfg.names.Nodup)
    (hrun : dirs.foldlM (addHook env) cfg = .ok cfg') : cfg'.names.Nodup := by
  induction dirs generalizing cfg with
  | nil =>
    cases hrun
    exact hnames
  | cons dir dirs ih =>
    rw [List.foldlM_cons] at hrun
    obtain ⟨cfg₁, hdir, hrest⟩ := bind_ok hrun
    obtain ⟨directive, args, file, line, children⟩ := dir
    have hnew : (newHook env cfg).names.Nodup := hnames
    exact ih (names_addVmods hnew hdir) hrest

/-- What a section leaves of the lists of the hooks before. -/
theorem Building.tries {cfg₀ : ModCfg} {s s' : List CStr} {l : List Nat} {q : VmodList}
    (hb : Building cfg₀ cfg s l)
    (hsame : ∀ s₁ name t s₁' t', s = s₁ ++ name :: t → s' = s₁' ++ name :: t' → t = t')
    (hq : Tries cfg₀ q s') : Tries cfg q s' := by
  obtain ⟨l', hfirst, hlinked, hnamed⟩ := hq
  have hnamed' : cfg.Named l' s' := hnamed.mono hb.grows
  refine ⟨l', hfirst, hlinked.congr fun a ha => ?_, hnamed'⟩
  by_cases hal : a ∈ l
  · -- the module is declared in both sections, and so are those behind it
    obtain ⟨l₁, t, rfl⟩ := List.append_of_mem hal
    obtain ⟨l₁', t', rfl⟩ := List.append_of_mem ha
    obtain ⟨s₁, name, names, hs, hname, ht⟩ := hb.named.split
    obtain ⟨s₁', name', names', hs', hname', ht'⟩ := hnamed'.split
    obtain rfl : name = name' := Option.some.inj (hname.symm.trans hname')
    obtain rfl : names = names' := hsame _ _ _ _ _ hs hs'
    obtain rfl : t = t' := ht.unique hb.names ht'
    rw [(Linked.of_append hb.linked).1, (Linked.of_append hlinked).1]
  · obtain ⟨name, -, hname⟩ := hnamed.mem ha
    exact hb.frame a hal (List.getElem?_eq_some_iff.mp hname).1

/-- With the same modules behind a module everywhere, no section changes the lists before. -/
theorem triesDeclared_of_sameBehind {all done dirs : List Cfg.Directive}
    (hsame : SameBehind (all.map declared)) (hdirs : ∀ dir ∈ dirs, dir ∈ all)
    (hnames : cfg.names.Nodup)
    (htries : List.Forall₂ (fun q dir => dir ∈ all ∧ Tries cfg q (declared dir)) cfg.hooks done)
    (hrun : dirs.foldlM (addHook env) cfg = .ok cfg') : TriesDeclared cfg' (done ++ dirs) := by
  induction dirs generalizing cfg done with
  | nil =>
    cases hrun
    rw [List.append_nil]
    exact htries.imp fun _ _ h => h.2
  | cons dir dirs ih =>
    rw [List.foldlM_cons] at hrun
    obtain ⟨cfg₁, hdir, hrun⟩ := bind_ok hrun
    have hmem : dir ∈ all := hdirs dir List.mem_cons_self
    have hsection : declared dir ∈ all.map declared := List.mem_map_of_mem hmem
    obtain ⟨l, hb⟩ := addHook_ok hnames (hsame.nodup hsection) hdir
    rw [List.append_cons]
    refine ih (fun d hd => hdirs d (List.mem_cons_of_mem _ hd)) hb.names ?_ hrun
    rw [hb.hooks]
    refine List.rel_append (htries.imp fun q d hd => ⟨hd.1, hb.tries ?_ hd.2⟩)
      (.cons ⟨hmem, l, rfl, hb.linked, hb.named⟩ .nil)
    exact hsame _ hsection _ (List.mem_map_of_mem hd.1)

/-- The lists that end have the same modules behind a module. -/
theorem sameBehind_of_triesDeclared {dirs : List Cfg.Directive} (hnames : cfg.names.Nodup)
    (htries : TriesDeclared cfg dirs) : SameBehind (dirs.map declared) := by
  have hlist : ∀ s ∈ dirs.map declared, ∃ l, Linked cfg.next l ∧ cfg.Named l s := by
    intro s hs
    obtain ⟨dir, hdir, rfl⟩ := List.mem_map.mp hs
    obtain ⟨q, -, l, -, hlinked, hnamed⟩ := forall₂_mem_right htries hdir
    exact ⟨l, hlinked, hnamed⟩
  intro s hs s' hs' s₁ name t s₁' t' heq heq'
  obtain ⟨l, hlinked, hnamed⟩ := hlist s hs
  obtain ⟨l', hlinked', hnamed'⟩ := hlist s' hs'
  rw [heq] at hnamed
  rw [heq'] at hnamed'
  obtain ⟨l₁, vmod, l₂, rfl, hname, hl₂⟩ := hnamed.split_right
  obtain ⟨l₁', vmod', l₂', rfl, hname', hl₂'⟩ := hnamed'.split_right
  obtain rfl : vmod = vmod' :=
    (List.getElem?_inj (List.getElem?_eq_some_iff.mp hname).1 hnames).mp (hname.trans hname'.symm)
  -- the links from a module give one list
  obtain ⟨-, rfl⟩ := List.cons.inj (Linked.unique (Linked.of_append hlinked)
    (Linked.of_append hlinked') rfl)
  exact hl₂.names_unique hl₂'

/-- No write is to where the array of the hooks was before; and each list ends and visits the modules
that its section declares, if and only if wherever a module is declared, the same modules are
declared after it. -/
theorem triesDeclared_iff (env : ConfigEnv) (dirs : List Cfg.Directive) :
    (∀ e, configure env dirs = .error e → e ≠ .stale) ∧
      ∀ cfg, configure env dirs = .ok cfg →
        (TriesDeclared cfg dirs ↔ SameBehind (dirs.map declared)) := by
  refine ⟨configure_not_stale dirs, fun cfg hrun => ⟨?_, fun hsame => ?_⟩⟩
  · exact sameBehind_of_triesDeclared (names_addHooks List.nodup_nil hrun)
  · exact triesDeclared_of_sameBehind hsame (fun _ h => h) List.nodup_nil .nil hrun

end

/-- `<vmod name>` -/
def vmodDir (name : CStr) : Cfg.Directive := .mk (ascii "<vmod") (some (name ++ [62])) [] 0 []

/-- `<hook ..>` with the modules. -/
def hookDir (names : List CStr) : Cfg.Directive := .mk (ascii "<hook") none [] 0 (names.map vmodDir)

/-- An array that moves each time, no other modules, and matches that are accepted. -/
def plainEnv : ConfigEnv := { realloc := id, loaded := fun _ => false, fmatch := fun _ => true }

/-- Two hooks that try the same module last. -/
theorem triesDeclared_shared : ∃ cfg,
    configure plainEnv [hookDir [[97], [98]], hookDir [[98]]] = .ok cfg ∧
      TriesDeclared cfg [hookDir [[97], [98]], hookDir [[98]]] := by
  refine ⟨_, rfl, ((triesDeclared_iff plainEnv _).2 _ rfl).mpr ?_⟩
  have hsections : [hookDir [[97], [98]], hookDir [[98]]].map declared = [[[97], [98]], [[98]]] := rfl
  rw [hsections]
  exact @sameBehind_of_suffix [[97], [98]] (by decide) _ (by decide)

/-- The first hook does not try its second module, since the second hook has the first one last. -/
theorem not_triesDeclared : ∃ cfg,
    configure plainEnv [hookDir [[97], [98]], hookDir [[97]]] = .ok cfg ∧
      ¬ TriesDeclared cfg [hookDir [[97], [98]], hookDir [[97]]] := by
  refine ⟨_, rfl, fun htries => ?_⟩
  have hsame := sameBehind_of_triesDeclared (by decide) htries
  exact absurd (hsame [[97], [98]] (by decide) [[97]] (by decide) [] [97] [[98]] [] [] rfl rfl)
    (by decide)

end Generic

end Orchids
