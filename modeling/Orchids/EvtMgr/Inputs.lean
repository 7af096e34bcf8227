import Mathlib.Data.List.Basic
import Mathlib.Data.List.Count
import Mathlib.Data.List.Induction
import Mathlib.Logic.Function.Basic
import Mathlib.Tactic.Common

/-!
# Real-time inputs (`orchids_api.c`, `evt_mgr.c`, `mod_textfile.c`)

The list of handlers, the set of descriptors and its maximum, and the calls that change them. What
the system returns is in the calls: the numbers of new descriptors, what a callback returns, and
whether a socket connects.

* `Watched`: what `select` is to examine has one handler, and is in its range.
* `Meets`: what a call is to be so that this stays so.
* `watched_iff`: all states of a run are watched if and only if its calls are such. A reconnection
  does not raise the maximum.
-/

namespace Orchids

/-! ## State -/

/-- `realtime_input_t`; the data of a text socket is the number of its `textsock_t`. -/
structure RealtimeInput where
  fd : Nat
  modId : Nat
  data : Option Nat

/-- What is used of `orchids_t`, and `f->fd` of each `textsock_t`. -/
structure InputCtx where
  handlers : List RealtimeInput
  fds : Nat → Bool
  maxfd : Nat
  socks : List Nat

namespace InputCtx

def init : InputCtx := { handlers := [], fds := fun _ => false, maxfd := 0, socks := [] }

/-! ## Operations -/

/-- `add_input_descriptor` -/
def addInputDescriptor (s : InputCtx) (rti : RealtimeInput) : InputCtx :=
  { s with
    handlers := rti :: s.handlers
    maxfd := if rti.fd > s.maxfd then rti.fd else s.maxfd
    fds := Function.update s.fds rti.fd true }

/-- The loop of `del_input_descriptor`: the first entry with the descriptor leaves the list. -/
def delEntry (fd : Nat) : List RealtimeInput → Option (List RealtimeInput)
  | [] => none
  | rti :: rest => if rti.fd = fd then some rest else (delEntry fd rest).map (rti :: ·)

/-- `del_input_descriptor` -/
def delInputDescriptor (s : InputCtx) (fd : Nat) : InputCtx :=
  match delEntry fd s.handlers with
  | none => s
  | some handlers => { s with handlers, fds := Function.update s.fds fd false }

/-- What the main loop does after a callback. -/
def returned (s : InputCtx) (rti : RealtimeInput) (n : Int) : InputCtx :=
  if n > 0 then { s with fds := Function.update s.fds rti.fd false } else s

/-- `substitute_fd` -/
def substituteFd (oldfd newfd : Nat) (handlers : List RealtimeInput) : List RealtimeInput :=
  if oldfd = newfd then handlers
  else handlers.map fun rti => if rti.fd = oldfd then { rti with fd := newfd } else rti

/-- `reincarnate_fd` -/
def reincarnateFd (s : InputCtx) (oldfd newfd : Nat) : InputCtx :=
  { s with
    handlers := substituteFd oldfd newfd s.handlers
    fds := Function.update s.fds newfd true }

/-- The branches of `add_input_file` for sockets and named pipes. -/
def addInputFile (s : InputCtx) (modId fd : Nat) : InputCtx :=
  { s with socks := s.socks ++ [fd] }.addInputDescriptor { fd, modId, data := some s.socks.length }

/-- `textsocket_try_reconnect` for a `textsock_t`, with what `socket` and `connect` return; where one
of them fails, it only registers itself for later. -/
def textsocketTryReconnect (s : InputCtx) (k : Nat) (socket : Option Nat) (connects : Bool) :
    InputCtx :=
  match s.socks[k]?, socket, connects with
  | some oldfd, some fd, true => { s.reincarnateFd oldfd fd with socks := s.socks.set k fd }
  | _, _, _ => s

/-! ## Runs -/

/-- A call. -/
inductive Op where
  | addInputDescriptor (modId fd : Nat)
  | addInputFile (modId fd : Nat)
  | delInputDescriptor (fd : Nat)
  /-- The callback of an entry returns. -/
  | returned (i : Nat) (n : Int)
  | textsocketTryReconnect (k : Nat) (socket : Option Nat) (connects : Bool)

def step (s : InputCtx) : Op → InputCtx
  | .addInputDescriptor modId fd => s.addInputDescriptor { fd, modId, data := none }
  | .addInputFile modId fd => s.addInputFile modId fd
  | .delInputDescriptor fd => s.delInputDescriptor fd
  | .returned i n =>
    match s.handlers[i]? with
    | none => s
    | some rti => s.returned rti n
  | .textsocketTryReconnect k socket connects => s.textsocketTryReconnect k socket connects

/-- The state after some calls. -/
def run (ops : List Op) : InputCtx := ops.foldl step init

theorem run_append (ops : List Op) (op : Op) : run (ops ++ [op]) = (run ops).step op :=
  List.foldl_concat _ _ _ _

/-! ## Watched inputs -/

/-- The descriptors of the handlers. -/
def handled (s : InputCtx) : List Nat := s.handlers.map (·.fd)

/-- `select` examines the descriptor. -/
def Examined (s : InputCtx) (fd : Nat) : Prop := fd < s.maxfd + 1 ∧ s.fds fd = true

/-- Each descriptor of the set is in the range of `select`, and has one handler. -/
def Watched (s : InputCtx) : Prop :=
  ∀ fd, s.fds fd = true → fd ≤ s.maxfd ∧ s.handled.count fd = 1

/-- The descriptor of a `textsock_t` is examined. -/
def SockExamined (s : InputCtx) (k : Nat) : Prop := ∀ fd, s.socks[k]? = some fd → s.Examined fd

/-- What is added has no handler yet. What a reconnection gives is not above the maximum; one entry
has the old number or the new one, and the old one is no longer in the set. -/
def Meets (s : InputCtx) : Op → Prop
  | .addInputDescriptor _ fd | .addInputFile _ fd => fd ∉ s.handled
  | .delInputDescriptor _ | .returned _ _ => True
  | .textsocketTryReconnect k socket connects =>
    ∀ oldfd fd, s.socks[k]? = some oldfd → socket = some fd → connects = true →
      fd ≤ s.maxfd ∧ (oldfd = fd → s.handled.count fd = 1) ∧
        (oldfd ≠ fd → s.fds oldfd = false ∧ s.handled.count oldfd + s.handled.count fd = 1)

/-! ## One call -/

section

variable {s : InputCtx}

theorem watched_addInputDescriptor (h : s.Watched) (rti : RealtimeInput) :
    (s.addInputDescriptor rti).Watched ↔ rti.fd ∉ s.handled := by
  have hcount : ∀ fd, (s.addInputDescriptor rti).handled.count fd =
      s.handled.count fd + if rti.fd == fd then 1 else 0 := fun fd => List.count_cons
  have hmax : s.maxfd ≤ (s.addInputDescriptor rti).maxfd ∧
      rti.fd ≤ (s.addInputDescriptor rti).maxfd := by
    simp only [addInputDescriptor]
    split <;> omega
  constructor
  · intro hw
    have hone := (hw rti.fd (Function.update_self _ _ _)).2
    rw [hcount, if_pos (beq_self_eq_true _)] at hone
    exact List.count_eq_zero.mp (by omega)
  · intro hnew fd hfd
    by_cases heq : rti.fd = fd
    · subst heq
      refine ⟨hmax.2, ?_⟩
      rw [hcount, if_pos (beq_self_eq_true _), List.count_eq_zero.mpr hnew]
    · have hold : s.fds fd = true := by
        simpa [addInputDescriptor, Function.update_of_ne (Ne.symm heq)] using hfd
      refine ⟨Nat.le_trans (h fd hold).1 hmax.1, ?_⟩
      rw [hcount, if_neg (by simpa using heq)]
      exact (h fd hold).2

theorem count_delEntry {fd : Nat} {l l' : List RealtimeInput} (hd : delEntry fd l = some l')
    {fd' : Nat} (hne : fd' ≠ fd) : (l'.map (·.fd)).count fd' = (l.map (·.fd)).count fd' := by
  induction l generalizing l' with
  | nil => cases hd
  | cons rti rest ih =>
    rw [delEntry] at hd
    split at hd
    · rename_i heq
      obtain rfl := Option.some.inj hd
      rw [List.map_cons, List.count_cons_of_ne (heq ▸ Ne.symm hne)]
    · obtain ⟨l'', hl'', rfl⟩ := Option.map_eq_some_iff.mp hd
      rw [List.map_cons, List.map_cons, List.count_cons, List.count_cons, ih hl'']

theorem Watched.delInputDescriptor (h : s.Watched) (fd : Nat) :
    (s.delInputDescriptor fd).Watched := by
  unfold InputCtx.delInputDescriptor
  cases hd : delEntry fd s.handlers with
  | none => exact h
  | some handlers =>
    intro fd' hfd'
    have hne : fd' ≠ fd := by
      rintro rfl
      simp at hfd'
    have hold : s.fds fd' = true := by simpa [Function.update_of_ne hne] using hfd'
    refine ⟨(h fd' hold).1, ?_⟩
    exact (count_delEntry hd hne).trans (h fd' hold).2

theorem Watched.returned (h : s.Watched) (rti : RealtimeInput) (n : Int) :
    (s.returned rti n).Watched := by
  unfold InputCtx.returned
  split
  · intro fd hfd
    have hne : fd ≠ rti.fd := by
      rintro rfl
      simp at hfd
    exact h fd (by simpa [Function.update_of_ne hne] using hfd)
  · exact h

/-! ## A reconnection -/

theorem substituteFd_self (fd : Nat) (l : List RealtimeInput) : substituteFd fd fd l = l :=
  if_pos rfl

theorem map_substituteFd {oldfd newfd : Nat} (hne : oldfd ≠ newfd) (l : List RealtimeInput) :
    (substituteFd oldfd newfd l).map (·.fd) =
      (l.map (·.fd)).map fun fd => if fd = oldfd then newfd else fd := by
  rw [substituteFd, if_neg hne, List.map_map, List.map_map]
  refine List.map_congr_left ?_
  intro rti _
  simp only [Function.comp_apply]
  split <;> rfl

/-- The new number gets the handlers of the old one. -/
theorem count_substituteFd {oldfd newfd : Nat} (hne : oldfd ≠ newfd) (l : List RealtimeInput)
    (fd : Nat) : ((substituteFd oldfd newfd l).map (·.fd)).count fd =
      if fd = newfd then (l.map (·.fd)).count oldfd + (l.map (·.fd)).count newfd
      else if fd = oldfd then 0 else (l.map (·.fd)).count fd := by
  rw [map_substituteFd hne]
  induction l.map (·.fd) with
  | nil => simp
  | cons n l ih =>
    rw [List.map_cons, List.count_cons, ih]
    simp only [List.count_cons, beq_iff_eq]
    grind

theorem watched_reincarnateFd (h : s.Watched) (oldfd newfd : Nat) :
    (s.reincarnateFd oldfd newfd).Watched ↔ newfd ≤ s.maxfd ∧
      (oldfd = newfd → s.handled.count newfd = 1) ∧
      (oldfd ≠ newfd → s.fds oldfd = false ∧
        s.handled.count oldfd + s.handled.count newfd = 1) := by
  have hset : ∀ fd, fd ≠ newfd → (s.reincarnateFd oldfd newfd).fds fd = s.fds fd :=
    fun fd hne => Function.update_of_ne hne _ _
  have hnew : (s.reincarnateFd oldfd newfd).fds newfd = true := Function.update_self _ _ _
  by_cases heq : oldfd = newfd
  · subst heq
    have hsame : (s.reincarnateFd oldfd oldfd).handled = s.handled :=
      congrArg (List.map RealtimeInput.fd) (substituteFd_self oldfd s.handlers)
    constructor
    · intro hw
      obtain ⟨hle, hone⟩ := hw oldfd hnew
      exact ⟨hle, fun _ => hsame ▸ hone, fun hne => absurd rfl hne⟩
    · rintro ⟨hle, hone, -⟩ fd hfd
      rw [hsame]
      by_cases hfd' : fd = oldfd
      · subst hfd'
        exact ⟨hle, hone rfl⟩
      · rw [hset fd hfd'] at hfd
        exact h fd hfd
  · have hcount := count_substituteFd heq s.handlers
    constructor
    · intro hw
      obtain ⟨hle, hone⟩ := hw newfd hnew
      refine ⟨hle, fun heq' => absurd heq' heq, fun _ => ⟨?_, ?_⟩⟩
      · -- the old number has no handler, so it is not in the set
        refine Bool.eq_false_iff.mpr fun hold => ?_
        have hzero := (hw oldfd ((hset oldfd heq).trans hold)).2
        rw [handled, reincarnateFd, hcount, if_neg heq, if_pos rfl] at hzero
        cases hzero
      · rw [handled, reincarnateFd, hcount, if_pos rfl] at hone
        exact hone
    · rintro ⟨hle, -, hone⟩ fd hfd
      obtain ⟨hold, hone⟩ := hone heq
      by_cases hfd' : fd = newfd
      · subst hfd'
        refine ⟨hle, ?_⟩
        rw [handled, reincarnateFd, hcount, if_pos rfl]
        exact hone
      · rw [hset fd hfd'] at hfd
        have hne : fd ≠ oldfd := by
          rintro rfl
          rw [hold] at hfd
          cases hfd
        refine ⟨(h fd hfd).1, ?_⟩
        rw [handled, reincarnateFd, hcount, if_neg hfd', if_neg hne]
        exact (h fd hfd).2

/-- A call keeps the inputs watched if and only if it meets its conditions. -/
theorem watched_step_iff (h : s.Watched) (op : Op) : (s.step op).Watched ↔ s.Meets op := by
  cases op with
  | addInputDescriptor modId fd => exact watched_addInputDescriptor h _
  | addInputFile modId fd =>
    exact watched_addInputDescriptor (s := { s with socks := s.socks ++ [fd] }) h _
  | delInputDescriptor fd => exact iff_of_true (h.delInputDescriptor fd) trivial
  | returned i n =>
    refine iff_of_true ?_ trivial
    simp only [step]
    split
    · exact h
    · exact h.returned _ n
  | textsocketTryReconnect k socket connects =>
    simp only [step, textsocketTryReconnect, Meets]
    split
    · rename_i oldfd fd hk
      constructor
      · rintro hw oldfd' fd' hk' ⟨⟩ -
        obtain rfl := Option.some.inj (hk.symm.trans hk')
        exact (watched_reincarnateFd h _ _).mp hw
      · intro hm
        exact (watched_reincarnateFd h _ _).mpr (hm oldfd fd hk rfl rfl)
    · rename_i hno
      refine iff_of_true h ?_
      rintro oldfd fd hk rfl rfl
      exact absurd rfl (hno oldfd fd hk rfl)

/-- After a reconnection, the descriptor of the socket is in the set; so it is examined if the
inputs are watched. -/
theorem Watched.sockExamined {k fd : Nat}
    (h : (s.step (.textsocketTryReconnect k (some fd) true)).Watched) :
    (s.step (.textsocketTryReconnect k (some fd) true)).SockExamined k := by
  simp only [step, textsocketTryReconnect] at h ⊢
  cases hk : s.socks[k]? with
  | none =>
    simp only [hk] at h ⊢
    intro fd' hfd'
    rw [hk] at hfd'
    cases hfd'
  | some oldfd =>
    simp only [hk] at h ⊢
    intro fd' hfd'
    have hlt : k < s.socks.length := (List.getElem?_eq_some_iff.mp hk).1
    rw [List.getElem?_set_self hlt] at hfd'
    obtain rfl := Option.some.inj hfd'
    have hset : Function.update s.fds fd true fd = true := Function.update_self _ _ _
    exact ⟨Nat.lt_succ_of_le (h fd hset).1, hset⟩

end

/-! ## All calls -/

theorem watched_init : init.Watched := by
  rintro fd ⟨⟩

/-- The inputs are watched in all states of a run, and a socket is examined after each of its
reconnections, if and only if all calls meet their conditions. -/
theorem watched_iff (ops : List Op) :
    (∀ pre, pre <+: ops → (run pre).Watched) ∧
      (∀ pre k fd, pre ++ [.textsocketTryReconnect k (some fd) true] <+: ops →
        (run (pre ++ [.textsocketTryReconnect k (some fd) true])).SockExamined k) ↔
      ∀ pre op, pre ++ [op] <+: ops → (run pre).Meets op := by
  constructor
  · rintro ⟨hw, -⟩ pre op hpre
    have hnext := hw _ hpre
    rw [run_append] at hnext
    exact (watched_step_iff (hw pre ((List.prefix_append _ _).trans hpre)) op).mp hnext
  · intro hm
    have hw : ∀ pre, pre <+: ops → (run pre).Watched := by
      intro pre
      induction pre using List.reverseRecOn with
      | nil => exact fun _ => watched_init
      | append_singleton pre op ih =>
        intro hpre
        rw [run_append]
        exact (watched_step_iff (ih ((List.prefix_append _ _).trans hpre)) op).mpr (hm pre op hpre)
    refine ⟨hw, ?_⟩
    intro pre k fd hpre
    have hlast := hw _ hpre
    rw [run_append] at hlast ⊢
    exact hlast.sockExamined

end InputCtx

open InputCtx in
/-- The old descriptor of a reconnection is not closed, so the new one has a higher number. -/
theorem not_watched : ¬ ∀ ops : List Op,
    (∀ pre, pre <+: ops → (run pre).Watched) ∧
      ∀ pre k fd, pre ++ [.textsocketTryReconnect k (some fd) true] <+: ops →
        (run (pre ++ [.textsocketTryReconnect k (some fd) true])).SockExamined k := by
  intro h
  obtain ⟨-, hexamined⟩ := h
    [.addInputFile 0 3, .returned 0 1, .textsocketTryReconnect 0 (some 4) true]
  have := hexamined [.addInputFile 0 3, .returned 0 1] 0 4 (List.prefix_refl _) 4 rfl
  exact absurd this.1 (by decide)

end Orchids
