import Orchids.Lib.Except
import Orchids.Mod.Records

/-!
# Raw Snare records (`mod_rawsnare.c`)

`rawsnare_dissect` up to `post_event`, on a 64-bit machine. The structures of `rawsnare.h` are members of
the record, each at its place; a read behind the record, out of a table or of a name that is `NULL` is a
crash.

* `readMembers_ok`: a reader comes back when each of its members is in the record.
* `readMembers_kept`: the array of the attributes has all that is built.
* `safe_iff`: for which records the reads are in bounds.
-/

namespace Orchids

namespace RawSnare

variable {F : Type}

/-! ## The tables -/

/-- `RAWSNARE_FIELDS` -/
def rawsnareFields : Nat := 35

/-- `NUMCLASS` -/
def numClass : Int := 12

/-- `LIN24_SYSCALL_MAX` -/
def lin24SyscallMax : Int := 243

/-- The fields, in the order of their numbers. -/
inductive Attribute where
  | time | eventClass | syscall | ruid | rgid | euid | egid | pid | ppid | procname | retcode
  | workdir | path | mode | createmode | cmdline | srcpath | dstpath | sockcall | dstip | dstport
  | srcip | srcport | owneruid | ownergid | targetid | targetrid | targetsid | modname | ptracereq
  | ptracepid | ptraceaddr | ptracedata | killpid | killsig
  deriving DecidableEq

/-- A table of names with `n` more entries, which are `NULL`. -/
def nameTable (names : List String) (n : Nat) : List (Option CStr) :=
  names.map (fun s => some (ascii s)) ++ List.replicate n none

def syscallNames : List String :=
  ["(0) ***", "(1) SYS_exit", "(2) SYS_fork", "(3) SYS_read", "(4) SYS_write", "(5) SYS_open",
    "(6) SYS_close", "(7) SYS_waitpid", "(8) SYS_creat", "(9) SYS_link", "(10) SYS_unlink",
    "(11) SYS_execve", "(12) SYS_chdir", "(13) SYS_time", "(14) SYS_mknod", "(15) SYS_chmod",
    "(16) SYS_lchown", "(17) SYS_break", "(18) SYS_oldstat", "(19) SYS_lseek", "(20) SYS_getpid",
    "(21) SYS_mount", "(22) SYS_umount", "(23) SYS_setuid", "(24) SYS_getuid", "(25) SYS_stime",
    "(26) SYS_ptrace", "(27) SYS_alarm", "(28) SYS_oldfstat", "(29) SYS_pause", "(30) SYS_utime",
    "(31) SYS_stty", "(32) SYS_gtty", "(33) SYS_access", "(34) SYS_nice", "(35) SYS_ftime",
    "(36) SYS_sync", "(37) SYS_kill", "(38) SYS_rename", "(39) SYS_mkdir", "(40) SYS_rmdir",
    "(41) SYS_dup", "(42) SYS_pipe", "(43) SYS_times", "(44) SYS_prof", "(45) SYS_brk",
    "(46) SYS_setgid", "(47) SYS_getgid", "(48) SYS_signal", "(49) SYS_geteuid",
    "(50) SYS_getegid", "(51) SYS_acct", "(52) SYS_umount2", "(53) SYS_lock", "(54) SYS_ioctl",
    "(55) SYS_fcntl", "(56) SYS_mpx", "(57) SYS_setpgid", "(58) SYS_ulimit",
    "(59) SYS_oldolduname", "(60) SYS_umask", "(61) SYS_chroot", "(62) SYS_ustat", "(63) SYS_dup2",
    "(64) SYS_getppid", "(65) SYS_getpgrp", "(66) SYS_setsid", "(67) SYS_sigaction",
    "(68) SYS_sgetmask", "(69) SYS_ssetmask", "(70) SYS_setreuid", "(71) SYS_setregid",
    "(72) SYS_sigsuspend", "(73) SYS_sigpending", "(74) SYS_sethostname", "(75) SYS_setrlimit",
    "(76) SYS_getrlimit", "(77) SYS_getrusage", "(78) SYS_gettimeofday", "(79) SYS_settimeofday",
    "(80) SYS_getgroups", "(81) SYS_setgroups", "(82) SYS_select", "(83) SYS_symlink",
    "(84) SYS_oldlstat", "(85) SYS_readlink", "(86) SYS_uselib", "(87) SYS_swapon",
    "(88) SYS_reboot", "(89) SYS_readdir", "(90) SYS_mmap", "(91) SYS_munmap", "(92) SYS_truncate",
    "(93) SYS_ftruncate", "(94) SYS_fchmod", "(95) SYS_fchown", "(96) SYS_getpriority",
    "(97) SYS_setpriority", "(98) SYS_profil", "(99) SYS_statfs", "(100) SYS_fstatfs",
    "(101) SYS_ioperm", "(102) SYS_socketcall", "(103) SYS_syslog", "(104) SYS_setitimer",
    "(105) SYS_getitimer", "(106) SYS_stat", "(107) SYS_lstat", "(108) SYS_fstat",
    "(109) SYS_olduname", "(110) SYS_iopl", "(111) SYS_vhangup", "(112) SYS_idle",
    "(113) SYS_vm86old", "(114) SYS_wait4", "(115) SYS_swapoff", "(116) SYS_sysinfo",
    "(117) SYS_ipc", "(118) SYS_fsync", "(119) SYS_sigreturn", "(120) SYS_clone",
    "(121) SYS_setdomainname", "(122) SYS_uname", "(123) SYS_modify_ldt", "(124) SYS_adjtimex",
    "(125) SYS_mprotect", "(126) SYS_sigprocmask", "(127) SYS_create_module",
    "(128) SYS_init_module", "(129) SYS_delete_module", "(130) SYS_get_kernel_syms",
    "(131) SYS_quotactl", "(132) SYS_getpgid", "(133) SYS_fchdir", "(134) SYS_bdflush",
    "(135) SYS_sysfs", "(136) SYS_personality", "(137) SYS_afs_syscall", "(138) SYS_setfsuid",
    "(139) SYS_setfsgid", "(140) SYS__llseek", "(141) SYS_getdents", "(142) SYS__newselect",
    "(143) SYS_flock", "(144) SYS_msync", "(145) SYS_readv", "(146) SYS_writev",
    "(147) SYS_getsid", "(148) SYS_fdatasync", "(149) SYS__sysctl", "(150) SYS_mlock",
    "(151) SYS_munlock", "(152) SYS_mlockall", "(153) SYS_munlockall", "(154) SYS_sched_setparam",
    "(155) SYS_sched_getparam", "(156) SYS_sched_setscheduler", "(157) SYS_sched_getscheduler",
    "(158) SYS_sched_yield", "(159) SYS_sched_get_priority_max",
    "(160) SYS_sched_get_priority_min", "(161) SYS_sched_rr_get_interval", "(162) SYS_nanosleep",
    "(163) SYS_mremap", "(164) SYS_setresuid", "(165) SYS_getresuid", "(166) SYS_vm86",
    "(167) SYS_query_module", "(168) SYS_poll", "(169) SYS_nfsservctl", "(170) SYS_setresgid",
    "(171) SYS_getresgid", "(172) SYS_prctl", "(173) SYS_rt_sigreturn", "(174) SYS_rt_sigaction",
    "(175) SYS_rt_sigprocmask", "(176) SYS_rt_sigpending", "(177) SYS_rt_sigtimedwait",
    "(178) SYS_rt_sigqueueinfo", "(179) SYS_rt_sigsuspend", "(180) SYS_pread", "(181) SYS_pwrite",
    "(182) SYS_chown", "(183) SYS_getcwd", "(184) SYS_capget", "(185) SYS_capset",
    "(186) SYS_sigaltstack", "(187) SYS_sendfile", "(188) SYS_getpmsg", "(189) SYS_putpmsg",
    "(190) SYS_vfork", "(191) SYS_ugetrlimit", "(192) SYS_mmap2", "(193) SYS_truncate64",
    "(194) SYS_ftruncate64", "(195) SYS_stat64", "(196) SYS_lstat64", "(197) SYS_fstat64",
    "(198) SYS_lchown32", "(199) SYS_getuid32", "(200) SYS_getgid32", "(201) SYS_geteuid32",
    "(202) SYS_getegid32", "(203) SYS_setreuid32", "(204) SYS_setregid32", "(205) SYS_getgroups32",
    "(206) SYS_setgroups32", "(207) SYS_fchown32", "(208) SYS_setresuid32",
    "(209) SYS_getresuid32", "(210) SYS_setresgid32", "(211) SYS_getresgid32", "(212) SYS_chown32",
    "(213) SYS_setuid32", "(214) SYS_setgid32", "(215) SYS_setfsuid32", "(216) SYS_setfsgid32",
    "(217) SYS_pivot_root", "(218) SYS_mincore", "(219) SYS_madvise", "(220) SYS_madvise1",
    "(221) SYS_getdents64", "(222) SYS_fcntl64", "(223) SYS_security", "(224) SYS_gettid",
    "(225) SYS_readahead", "(226) SYS_setxattr", "(227) SYS_lsetxattr", "(228) SYS_fsetxattr",
    "(229) SYS_getxattr", "(230) SYS_lgetxattr", "(231) SYS_fgetxattr", "(232) SYS_listxattr",
    "(233) SYS_llistxattr", "(234) SYS_flistxattr", "(235) SYS_removexattr",
    "(236) SYS_lremovexattr", "(237) SYS_fremovexattr", "(238) SYS_tkill", "(239) SYS_sendfile64",
    "(240) SYS_futex", "(241) SYS_sched_setaffinity", "(242) SYS_sched_getaffinity"]

/-- `linux24_syscall_name_g` -/
def syscallName : List (Option CStr) := nameTable syscallNames 13

def socketcallNames : List String :=
  ["(0) Not Defined", "(1) SYS_SOCKET", "(2) SYS_BIND", "(3) SYS_CONNECT", "(4) SYS_LISTEN",
    "(5) SYS_ACCEPT", "(6) SYS_GETSOCKNAME", "(7) SYS_GETPEERNAME", "(8) SYS_SOCKETPAIR",
    "(9) SYS_SEND", "(10) SYS_RECV", "(11) SYS_SENDTO", "(12) SYS_RECVFROM", "(13) SYS_SHUTDOWN",
    "(14) SYS_SETSOCKOPT", "(15) SYS_GETSOCKOPT", "(16) SYS_SENDMSG", "(17) SYS_RECVMSG"]

/-- `linux24_socketcall_name_g` -/
def socketcallName : List (Option CStr) := nameTable socketcallNames 1

def ptraceReqnames : List String :=
  ["(0) PTRACE_TRACEME", "(1) PTRACE_PEEKTEXT", "(2) PTRACE_PEEKDATA", "(3) PTRACE_PEEKUSER",
    "(4) PTRACE_POKETEXT", "(5) PTRACE_POKEDATA", "(6) PTRACE_POKEUSER", "(7) PTRACE_CONT",
    "(8) PTRACE_KILL", "(9) PTRACE_SINGLESTEP", "(10) N/A", "(11) N/A", "(12) PTRACE_GETREGS",
    "(13) PTRACE_SETREGS", "(14) PTRACE_GETFPREGS", "(15) PTRACE_SETFPREGS", "(16) PTRACE_ATTACH",
    "(17) PTRACE_DETACH", "(18) PTRACE_GETFPXREGS", "(19) PTRACE_SETFPXREGS", "(20) N/A",
    "(21) N/A", "(22) N/A", "(23) N/A", "(24) PTRACE_SYSCALL"]

/-- `linux24_ptrace_reqname_g` -/
def ptraceReqname : List (Option CStr) := nameTable ptraceReqnames 1

def signalNames : List String :=
  ["(0) N/A", "(1) SIGHUP", "(2) SIGINT", "(3) SIGQUIT", "(4) SIGILL", "(5) SIGTRAP",
    "(6) SIGABRT", "(7) SIGBUS", "(8) SIGFPE", "(9) SIGKILL", "(10) SIGUSR1", "(11) SIGSEGV",
    "(12) SIGUSR2", "(13) SIGPIPE", "(14) SIGALRM", "(15) SIGTERM", "(16) SIGSTKFLT",
    "(17) SIGCHLD", "(18) SIGCONT", "(19) SIGSTOP", "(20) SIGTSTP", "(21) SIGTTIN", "(22) SIGTTOU",
    "(23) SIGURG", "(24) SIGXCPU", "(25) SIGXFSZ", "(26) SIGVTALRM", "(27) SIGPROF",
    "(28) SIGWINCH", "(29) SIGIO", "(30) SIGPWR", "(31) SIGSYS"]

/-- `linux24_signal_g` -/
def signal : List (Option CStr) := nameTable signalNames 0

/-! ## The members -/

/-- The types of the numbers. -/
inductive Number where
  | ushort | int | ulong
  deriving DecidableEq

namespace Number

def size : Number → Nat
  | ushort => 2
  | int => 4
  | ulong => 8

/-- What the bytes stand for. -/
def ofBytes : Number → List UInt8 → Int
  | int, l => (BitVec.ofNat 32 (readUint 4 l)).toInt
  | t, l => readUint t.size l

end Number

/-- How a member is read into its field. -/
inductive Kind where
  | number (t : Number)
  /-- A virtual string, up to its `NUL`. -/
  | vstr
  /-- The name of a number below `max`, for which nothing is made from there on. -/
  | name (t : Number) (max : Int) (names : List (Option CStr))
  | ipv4
  | ptr32
  | timeval

structure Member where
  field : Attribute
  kind : Kind
  offset : Nat

/-- `n` bytes of the record. -/
def part (record : Text) (offset n : Nat) : Except Crash (List UInt8) :=
  if offset + n ≤ record.bytes.length then .ok ((record.bytes.drop offset).take n)
  else .error .overread

def readNumber (record : Text) (t : Number) (offset : Nat) : Except Crash Int := do
  return t.ofBytes (← part record offset t.size)

/-- A string with its `strlen`. -/
def readString (record : Text) (offset : Nat) : Except Crash Text :=
  let rest := record.bytes.drop offset
  if 0 ∈ rest then .ok ((record.advance offset).slice (rest.takeWhile (· ≠ 0)).length)
  else .error .overread

/-- An entry of a table, with its `strlen`. -/
def lookupName (names : List (Option CStr)) (i : Int) : Except Crash Text :=
  if i < 0 then .error .misread
  else match names[i.toNat]? with
    | some (some s) => .ok { bytes := s, behind := fun _ => 0 }
    | _ => .error .misread

/-- What a member gives. `inetAddr` is `inet_addr` on a place of the record, with the bytes that are there;
it is `none` when it reads on behind them. -/
def Member.read (inetAddr : List UInt8 → Option (BitVec 32)) (record : Text) (m : Member) :
    Except Crash (Option (OvmVar F)) :=
  match m.kind with
  | .number t => do return some (.int (BitVec.ofInt 64 (← readNumber record t m.offset)))
  | .vstr => do return some (.vstr (← readString record m.offset))
  | .name t max names => do
    let i ← readNumber record t m.offset
    if i < max then return some (.vstr (← lookupName names i)) else return none
  | .ipv4 =>
    match inetAddr (record.bytes.drop m.offset) with
    | some addr => .ok (some (.ipv4 addr))
    | none => .error .overread
  | .ptr32 => do return some (.ptr32 (BitVec.ofInt 64 (← readNumber record .ulong m.offset)))
  | .timeval => do
    let sec ← readNumber record .ulong m.offset
    let usec ← readNumber record .ulong (m.offset + 8)
    return some (.timeval { sec := BitVec.ofInt 64 sec, usec := BitVec.ofInt 64 usec })

/-! ## The readers -/

/-- `attr`, and the numbers of the fields whose values were built. -/
structure Attrs (F : Type) where
  attr : List (Slot (OvmVar F))
  built : List Nat

namespace Attrs

/-- The array after `memset`. -/
def empty : Attrs F := { attr := List.replicate rawsnareFields .null, built := [] }

/-- The field gets the value that is made for it, if one is. -/
def fill (a : Attrs F) (field : Attribute) : Option (OvmVar F) → Attrs F
  | none => a
  | some v => { attr := a.attr.set field.ctorIdx (.value v), built := field.ctorIdx :: a.built }

end Attrs

/-- The members of a structure, one after the other. -/
def readMembers (inetAddr : List UInt8 → Option (BitVec 32)) (record : Text) :
    List Member → Attrs F → Except Crash (Attrs F)
  | [], a => .ok a
  | m :: ms, a => do
    let v ← m.read inetAddr record
    readMembers inetAddr record ms (a.fill m.field v)

/-- `header_token_t` -/
def headerToken : List Member :=
  [⟨.eventClass, .number .ushort, 0⟩, ⟨.syscall, .name .ushort lin24SyscallMax syscallName, 2⟩,
   ⟨.time, .timeval, 8⟩, ⟨.ruid, .number .int, 24⟩, ⟨.rgid, .number .int, 32⟩,
   ⟨.euid, .number .int, 28⟩, ⟨.egid, .number .int, 36⟩]

/-- `t_return` and `t_process`, which follow the header in each class. -/
def processToken : List Member :=
  [⟨.retcode, .number .int, 40⟩, ⟨.pid, .number .int, 44⟩, ⟨.ppid, .number .int, 48⟩,
   ⟨.procname, .vstr, 52⟩]

/-- What is behind `t_process`. -/
def tBody : Nat := 68

/-- `MAX_PATH` -/
def maxPath : Nat := 512

section

variable (inetAddr : List UInt8 → Option (BitVec 32)) (record : Text)

/-- A reader: `t_return`, `t_process`, and the members of its own. -/
def readClassMembers (own : List Member) : Attrs F → Except Crash (Attrs F) :=
  readMembers inetAddr record (processToken ++ own)

/-- `read_io`; `t_attributes` has the alignment of a `long`. -/
def readIo : Attrs F → Except Crash (Attrs F) :=
  readClassMembers inetAddr record
    [⟨.path, .vstr, tBody⟩, ⟨.workdir, .vstr, tBody + maxPath⟩,
     ⟨.mode, .number .int, tBody + 2 * maxPath + 4⟩,
     ⟨.createmode, .number .ulong, tBody + 2 * maxPath + 12⟩]

/-- `read_pc` -/
def readPc : Attrs F → Except Crash (Attrs F) := readClassMembers inetAddr record []

/-- `read_exec` -/
def readExec : Attrs F → Except Crash (Attrs F) :=
  readClassMembers inetAddr record
    [⟨.path, .vstr, tBody⟩, ⟨.workdir, .vstr, tBody + maxPath⟩,
     ⟨.cmdline, .vstr, tBody + 2 * maxPath⟩]

/-- `read_net` -/
def readNet : Attrs F → Except Crash (Attrs F) :=
  readClassMembers inetAddr record
    [⟨.sockcall, .name .int 20 socketcallName, tBody⟩, ⟨.srcip, .ipv4, tBody + 4⟩,
     ⟨.srcport, .number .int, tBody + 44⟩, ⟨.dstip, .ipv4, tBody + 48⟩,
     ⟨.dstport, .number .int, tBody + 88⟩]

/-- `read_pt` -/
def readPt : Attrs F → Except Crash (Attrs F) :=
  readClassMembers inetAddr record
    [⟨.ptracereq, .name .int 25 ptraceReqname, tBody⟩, ⟨.ptracepid, .number .int, tBody + 20⟩,
     ⟨.ptraceaddr, .ptr32, tBody + 4⟩, ⟨.ptracedata, .ptr32, tBody + 12⟩]

/-- `read_kill` -/
def readKill : Attrs F → Except Crash (Attrs F) :=
  readClassMembers inetAddr record
    [⟨.killsig, .name .int 32 signal, tBody + 4⟩, ⟨.killpid, .number .int, tBody⟩]

/-- `read_ch` -/
def readCh : Attrs F → Except Crash (Attrs F) :=
  readClassMembers inetAddr record
    [⟨.path, .vstr, tBody⟩, ⟨.workdir, .vstr, tBody + maxPath⟩,
     ⟨.owneruid, .number .int, tBody + 2 * maxPath⟩,
     ⟨.ownergid, .number .int, tBody + 2 * maxPath + 4⟩]

/-- `read_cp` -/
def readCp : Attrs F → Except Crash (Attrs F) :=
  readClassMembers inetAddr record
    [⟨.srcpath, .vstr, tBody⟩, ⟨.workdir, .vstr, tBody + maxPath⟩,
     ⟨.dstpath, .vstr, tBody + 2 * maxPath⟩]

/-- `read_su` -/
def readSu : Attrs F → Except Crash (Attrs F) :=
  readClassMembers inetAddr record
    [⟨.targetid, .number .int, tBody⟩, ⟨.targetrid, .number .int, tBody + 4⟩,
     ⟨.targetsid, .number .int, tBody + 8⟩]

/-- `read_ad` -/
def readAd : Attrs F → Except Crash (Attrs F) :=
  readClassMembers inetAddr record [⟨.modname, .vstr, tBody⟩]

/-- `read_class` -/
def readClass : List (Option (Attrs F → Except Crash (Attrs F))) :=
  [none, some (readIo inetAddr record), some (readPc inetAddr record),
   some (readExec inetAddr record), some (readNet inetAddr record), none,
   some (readCh inetAddr record), some (readCp inetAddr record), some (readSu inetAddr record),
   some (readAd inetAddr record), some (readPt inetAddr record), some (readKill inetAddr record), none]

end

/-- `free_fields`: the numbers of the fields whose values are freed. -/
def freeFields (attr : List (Slot (OvmVar F))) : List Nat :=
  (List.range rawsnareFields).filter fun i =>
    match attr[i]? with
    | some (.value _) => true
    | _ => false

/-- What `rawsnare_dissect` returns, the fields whose values it built and freed, and the event. -/
structure Dissected (F : Type) where
  ret : Nat
  built : List Nat
  freed : List Nat
  event : EventList (OvmVar F)

/-- `rawsnare_dissect` -/
def rawsnareDissect {D : Type} (inetAddr : List UInt8 → Option (BitVec 32)) (s : ModCtx D)
    (mod : ModEntry D) (v : OvmVar F) (event : EventList (OvmVar F)) :
    Except Crash (Dissected F) :=
  match v with
  | .bstr record => do
    let a ← readMembers inetAddr record headerToken .empty
    let eventClass ← readNumber record .ushort 0
    if numClass < eventClass then
      return { ret := 1, built := a.built, freed := freeFields a.attr, event }
    match (readClass inetAddr record)[eventClass.toNat]? with
    | none => throw .misread
    | some none =>
      return { ret := 0, built := a.built, freed := [], event := s.addFieldsToEvent mod event a.attr }
    | some (some read) =>
      let a ← read a
      return { ret := 0, built := a.built, freed := [], event := s.addFieldsToEvent mod event a.attr }
  | _ => .error .misread

/-! ## Members in the record -/

/-- A string that ends in the record. -/
def Terminated (record : Text) (offset : Nat) : Prop := 0 ∈ record.bytes.drop offset

/-- The number at a place. -/
def numberAt (record : Text) (t : Number) (offset : Nat) : Int :=
  t.ofBytes ((record.bytes.drop offset).take t.size)

/-- An entry of the table that is not `NULL`. -/
def Named (names : List (Option CStr)) (i : Int) : Prop :=
  0 ≤ i ∧ ∃ s, names[i.toNat]? = some (some s)

/-- What is read of a member is in the record, and its name is in the table. -/
def Member.Inside (inetAddr : List UInt8 → Option (BitVec 32)) (record : Text) (m : Member) : Prop :=
  match m.kind with
  | .number t => m.offset + t.size ≤ record.bytes.length
  | .vstr => Terminated record m.offset
  | .name t max names => m.offset + t.size ≤ record.bytes.length ∧
      (numberAt record t m.offset < max → Named names (numberAt record t m.offset))
  | .ipv4 => (inetAddr (record.bytes.drop m.offset)).isSome
  | .ptr32 => m.offset + 8 ≤ record.bytes.length
  | .timeval => m.offset + 16 ≤ record.bytes.length

section

variable {record : Text}

theorem readNumber_eq_ok {t : Number} {offset : Nat} {i : Int} :
    readNumber record t offset = .ok i ↔
      offset + t.size ≤ record.bytes.length ∧ numberAt record t offset = i := by
  rw [readNumber, bind_eq_ok, part]
  split
  · rename_i hle
    rw [and_iff_right hle]
    constructor
    · rintro ⟨l, hl, hi⟩
      cases hl
      exact Except.ok.inj hi
    · rintro rfl
      exact ⟨_, rfl, rfl⟩
  · rename_i hgt
    refine iff_of_false ?_ fun h => hgt h.1
    rintro ⟨l, ⟨⟩, -⟩

theorem readNumber_ok {t : Number} {offset : Nat} :
    (∃ i, readNumber record t offset = .ok i) ↔ offset + t.size ≤ record.bytes.length := by
  simp only [readNumber_eq_ok, exists_and_left, exists_eq', and_true]

theorem readString_ok {offset : Nat} :
    (∃ t, readString record offset = .ok t) ↔ Terminated record offset := by
  rw [readString, Terminated]
  split
  · rename_i hmem
    exact iff_of_true ⟨_, rfl⟩ hmem
  · rename_i hmem
    refine iff_of_false ?_ hmem
    rintro ⟨t, ⟨⟩⟩

theorem lookupName_ok {names : List (Option CStr)} {i : Int} :
    (∃ t, lookupName names i = .ok t) ↔ Named names i := by
  rw [lookupName, Named]
  split
  · rename_i hneg
    refine iff_of_false ?_ fun h => Int.not_le.mpr hneg h.1
    rintro ⟨t, ⟨⟩⟩
  · rename_i hpos
    rw [and_iff_right (Int.not_lt.mp hpos)]
    split
    · rename_i s hs
      exact iff_of_true ⟨_, rfl⟩ ⟨s, hs⟩
    · rename_i hnone
      refine iff_of_false ?_ fun ⟨s, hs⟩ => hnone s hs
      rintro ⟨t, ⟨⟩⟩

theorem read_ok (inetAddr : List UInt8 → Option (BitVec 32)) (m : Member) :
    (∃ v : Option (OvmVar F), m.read inetAddr record = .ok v) ↔ m.Inside inetAddr record := by
  rw [Member.read, Member.Inside]
  split
  · exact bind_pure_ok_iff.trans readNumber_ok
  · exact bind_pure_ok_iff.trans readString_ok
  · rename_i t max names _
    rw [bind_ok_iff]
    simp only [readNumber_eq_ok, and_assoc, exists_and_left, exists_eq_left']
    refine and_congr_right fun _ => ?_
    split
    · rename_i hlt
      rw [bind_pure_ok_iff, lookupName_ok]
      exact ⟨fun h _ => h, fun h => h hlt⟩
    · rename_i hge
      exact iff_of_true ⟨_, rfl⟩ fun h => absurd h hge
  · cases inetAddr (record.bytes.drop m.offset) with
    | some addr => exact iff_of_true ⟨_, rfl⟩ rfl
    | none =>
      refine iff_of_false ?_ Bool.false_ne_true
      rintro ⟨v, ⟨⟩⟩
  · exact bind_pure_ok_iff.trans readNumber_ok
  · constructor
    · intro h
      obtain ⟨sec, -, hrest⟩ := bind_ok_iff.mp h
      have hle : m.offset + 8 + 8 ≤ record.bytes.length := readNumber_ok.mp (bind_pure_ok_iff.mp hrest)
      omega
    · intro hle
      have hsec : m.offset + 8 ≤ record.bytes.length := by omega
      have husec : m.offset + 8 + 8 ≤ record.bytes.length := by omega
      obtain ⟨sec, hsec⟩ := (@readNumber_ok _ .ulong _).mpr hsec
      exact bind_ok_iff.mpr ⟨sec, hsec, bind_pure_ok_iff.mpr ((@readNumber_ok _ .ulong _).mpr husec)⟩

/-- A reader comes back when each of its members is in the record. -/
theorem readMembers_ok (inetAddr : List UInt8 → Option (BitVec 32)) (ms : List Member) (a : Attrs F) :
    (∃ a', readMembers inetAddr record ms a = .ok a') ↔ ∀ m ∈ ms, m.Inside inetAddr record := by
  induction ms generalizing a with
  | nil => exact iff_of_true ⟨a, rfl⟩ (List.forall_mem_nil _)
  | cons m ms ih =>
    rw [readMembers, bind_ok_iff, List.forall_mem_cons, ← @read_ok F]
    simp only [ih]
    exact exists_and_right

end

/-! ## What is built -/

/-- The array has all that was built, each in a place of its own. -/
structure Attrs.Kept (a : Attrs F) : Prop where
  length_eq : a.attr.length = rawsnareFields
  nodup : a.built.Nodup
  mem_built : ∀ i, i ∈ a.built ↔ ∃ v, a.attr[i]? = some (.value v)

theorem kept_empty : (Attrs.empty : Attrs F).Kept where
  length_eq := List.length_replicate
  nodup := List.nodup_nil
  mem_built := fun i => by
    refine iff_of_false nofun ?_
    rintro ⟨v, hv⟩
    cases List.eq_of_mem_replicate (List.mem_of_getElem? hv)

theorem ctorIdx_lt (f : Attribute) : f.ctorIdx < rawsnareFields := by
  cases f <;> decide

/-- A field that has no value yet takes one. -/
theorem Attrs.Kept.fill {a : Attrs F} (h : a.Kept) {f : Attribute} (hf : f.ctorIdx ∉ a.built)
    (v : Option (OvmVar F)) : (a.fill f v).Kept := by
  cases v with
  | none => exact h
  | some v =>
    refine ⟨List.length_set.trans h.length_eq, List.nodup_cons.mpr ⟨hf, h.nodup⟩, fun i => ?_⟩
    change i ∈ f.ctorIdx :: a.built ↔ ∃ w, (a.attr.set f.ctorIdx (.value v))[i]? = some (.value w)
    rw [List.mem_cons]
    by_cases hi : i = f.ctorIdx
    · subst hi
      have hlt : f.ctorIdx < a.attr.length := by rw [h.length_eq]; exact ctorIdx_lt f
      exact iff_of_true (.inl rfl) ⟨v, List.getElem?_set_self hlt⟩
    · rw [List.getElem?_set_ne (Ne.symm hi), ← h.mem_built i]
      exact or_iff_right hi

theorem mem_built_fill {a : Attrs F} {f : Attribute} {v : Option (OvmVar F)} {i : Nat}
    (h : i ∈ (a.fill f v).built) : i = f.ctorIdx ∨ i ∈ a.built := by
  cases v with
  | none => exact .inr h
  | some v => exact List.mem_cons.mp h

/-- Members of different fields leave what is built in the array. -/
theorem readMembers_kept {inetAddr : List UInt8 → Option (BitVec 32)} {record : Text}
    {ms : List Member} (hms : (ms.map fun m => m.field.ctorIdx).Nodup) {a a' : Attrs F} (h : a.Kept)
    (hnew : ∀ m ∈ ms, m.field.ctorIdx ∉ a.built)
    (hrun : readMembers inetAddr record ms a = .ok a') : a'.Kept := by
  induction ms generalizing a with
  | nil => exact Except.ok.inj hrun ▸ h
  | cons m ms ih =>
    rw [readMembers] at hrun
    obtain ⟨v, -, hrun⟩ := bind_ok hrun
    obtain ⟨hm, hms⟩ := List.nodup_cons.mp hms
    refine ih hms (h.fill (hnew m List.mem_cons_self) v) (fun m' hm' hin => ?_) hrun
    rcases mem_built_fill hin with heq | hin
    · exact hm (List.mem_map.mpr ⟨m', hm', heq⟩)
    · exact hnew m' (List.mem_cons_of_mem m hm') hin

/-- Everything that is built is freed, once. -/
theorem Attrs.Kept.freeFields_perm {a : Attrs F} (h : a.Kept) :
    (freeFields a.attr).Perm a.built := by
  refine (List.perm_ext_iff_of_nodup (List.nodup_range.filter _) h.nodup).mpr fun i => ?_
  rw [List.mem_filter, List.mem_range, h.mem_built i]
  constructor
  · rintro ⟨-, hi⟩
    split at hi
    · rename_i v hv
      exact ⟨v, hv⟩
    · cases hi
  · rintro ⟨v, hv⟩
    refine ⟨?_, by rw [hv]⟩
    rw [← h.length_eq]
    exact (List.getElem?_eq_some_iff.mp hv).1

/-! ## Whole records -/

section

variable (inetAddr : List UInt8 → Option (BitVec 32)) (record : Text)

def eventClass : Nat := (numberAt record .ushort 0).toNat

/-- What a record of a class has behind `t_process`: the structure up to the last number that is read, its
strings with their ends, and numbers that have a name where one is looked up. -/
def HasBody : Nat → Prop
  | 1 => 1112 ≤ record.bytes.length ∧ Terminated record 68 ∧ Terminated record 580
  | 3 => Terminated record 68 ∧ Terminated record 580 ∧ Terminated record 1092
  | 4 => 160 ≤ record.bytes.length ∧
      (numberAt record .int 68 < 20 → 0 ≤ numberAt record .int 68 ∧ numberAt record .int 68 < 18) ∧
      (inetAddr (record.bytes.drop 72)).isSome ∧ (inetAddr (record.bytes.drop 116)).isSome
  | 6 => 1100 ≤ record.bytes.length ∧ Terminated record 68 ∧ Terminated record 580
  | 7 => Terminated record 68 ∧ Terminated record 580 ∧ Terminated record 1092
  | 8 => 80 ≤ record.bytes.length
  | 9 => Terminated record 68
  | 10 => 92 ≤ record.bytes.length ∧ 0 ≤ numberAt record .int 68
  | 11 => 76 ≤ record.bytes.length ∧ 0 ≤ numberAt record .int 72
  | _ => True

/-- The classes that have a reader. -/
def classes : List Nat := [1, 2, 3, 4, 6, 7, 8, 9, 10, 11]

/-- The record has its header, and what its class has if there is a reader for it. -/
def Whole : Prop :=
  40 ≤ record.bytes.length ∧
    (eventClass record ∈ classes → Terminated record 52 ∧ HasBody inetAddr record (eventClass record))

end

/-- The record is read in its bounds and the tables in theirs, and if it is rejected all that is built is
freed and the event is as it was. -/
def Safe {D : Type} (inetAddr : List UInt8 → Option (BitVec 32)) (s : ModCtx D) (mod : ModEntry D)
    (v : OvmVar F) (event : EventList (OvmVar F)) : Prop :=
  ∃ d, rawsnareDissect inetAddr s mod v event = .ok d ∧
    (d.ret = 1 → d.freed.Perm d.built ∧ d.event = event)

theorem named_nameTable {names : List String} {n : Nat} {i : Int} :
    Named (nameTable names n) i ↔ 0 ≤ i ∧ i < names.length := by
  refine and_congr_right fun hpos => ?_
  obtain ⟨k, rfl⟩ := Int.eq_ofNat_of_zero_le hpos
  rw [Int.toNat_natCast, Int.ofNat_lt, nameTable]
  constructor
  · rintro ⟨s, hs⟩
    refine Nat.lt_of_not_le fun hle => ?_
    rw [List.getElem?_append_right (by rw [List.length_map]; exact hle)] at hs
    cases List.eq_of_mem_replicate (List.mem_of_getElem? hs)
  · intro hlt
    rw [List.getElem?_append_left (by rw [List.length_map]; exact hlt), List.getElem?_map,
      List.getElem?_eq_getElem hlt]
    exact ⟨_, rfl⟩

section

variable {inetAddr : List UInt8 → Option (BitVec 32)} {record : Text}

theorem Terminated.lt {offset : Nat} (h : Terminated record offset) :
    offset < record.bytes.length := by
  refine Nat.lt_of_not_le fun hle => ?_
  rw [Terminated, List.drop_eq_nil_of_le hle] at h
  cases h

theorem readClassMembers_ok (own : List Member) (a : Attrs F) :
    (∃ a', readClassMembers inetAddr record own a = .ok a') ↔
      Terminated record 52 ∧ ∀ m ∈ own, m.Inside inetAddr record := by
  rw [readClassMembers, readMembers_ok, List.forall_mem_append]
  refine and_congr_left fun _ => ?_
  simp only [processToken, List.forall_mem_cons, Member.Inside, Number.size, List.not_mem_nil,
    false_imp_iff, implies_true, and_true]
  constructor
  · exact fun h => h.2.2.2
  · intro h
    have := h.lt
    exact ⟨by omega, by omega, by omega, h⟩

/-- What the reader of a class needs. -/
theorem readClass_ok {c : Nat} {read : Attrs F → Except Crash (Attrs F)}
    (hread : (readClass inetAddr record)[c]? = some (some read)) (a : Attrs F) :
    (∃ a', read a = .ok a') ↔ Terminated record 52 ∧ HasBody inetAddr record c := by
  have hsockcall : socketcallNames.length = 18 := rfl
  have hreqname : ptraceReqnames.length = 25 := rfl
  have hsignal : signalNames.length = 32 := rfl
  -- a string that ends in the record is in it from its first byte on, so the numbers before it are
  rcases c with _ | _ | _ | _ | _ | _ | _ | _ | _ | _ | _ | _ | _ | c <;> cases hread <;>
    refine (readClassMembers_ok _ a).trans (and_congr_right fun _ => ?_) <;>
    simp only [List.forall_mem_cons, List.not_mem_nil, false_imp_iff, implies_true, and_true,
      Member.Inside, Number.size, tBody, maxPath, HasBody, socketcallName, ptraceReqname, signal,
      named_nameTable, hsockcall, hreqname, hsignal, Nat.reduceAdd, Nat.reduceMul] <;>
  grind

/-- Each class up to `NUMCLASS` has an entry, and those with a reader are `classes`. -/
theorem readClass_entry {c : Nat} (hc : c ≤ 12) :
    (c ∈ classes ∧ ∃ read : Attrs F → Except Crash (Attrs F),
        (readClass inetAddr record)[c]? = some (some read)) ∨
      (c ∉ classes ∧ (readClass inetAddr record : List (Option (Attrs F → _)))[c]? = some none) := by
  have hmem : c ∈ classes ↔ ((readClass inetAddr record : List (Option (Attrs F → _)))[c]?).join.isSome := by
    rcases c with _ | _ | _ | _ | _ | _ | _ | _ | _ | _ | _ | _ | _ | c <;>
      simp [classes, readClass]
  have hlt : c < (readClass inetAddr record : List (Option (Attrs F → _))).length :=
    Nat.lt_succ_of_le hc
  rw [hmem, List.getElem?_eq_getElem hlt]
  cases (readClass inetAddr record : List (Option (Attrs F → _)))[c] with
  | none => exact .inr ⟨nofun, rfl⟩
  | some read => exact .inl ⟨rfl, read, rfl⟩

theorem numberAt_ushort_nonneg (record : Text) (offset : Nat) :
    0 ≤ numberAt record .ushort offset := Int.natCast_nonneg _

/-- The number of a system call is in the table when it is below the bound. -/
theorem headerToken_ok (a : Attrs F) :
    (∃ a', readMembers inetAddr record headerToken a = .ok a') ↔ 40 ≤ record.bytes.length := by
  have hsyscall : syscallNames.length = 243 := rfl
  have hpos := numberAt_ushort_nonneg record 2
  rw [readMembers_ok]
  simp only [headerToken, List.forall_mem_cons, List.not_mem_nil, false_imp_iff, implies_true,
    and_true, Member.Inside, Number.size, syscallName, named_nameTable, hsyscall, lin24SyscallMax]
  constructor
  · exact fun h => h.2.2.2.2.2.2
  · intro h
    exact ⟨by omega, ⟨by omega, fun hlt => ⟨hpos, hlt⟩⟩, by omega, by omega, by omega, by omega, h⟩

theorem headerToken_fields : (headerToken.map fun m => m.field.ctorIdx).Nodup := by decide

/-- A record is read in bounds, and nothing is left of it when it is rejected, exactly when it has its
header, and for a class with a reader the strings with their ends, the numbers and the names that the
reader looks at. -/
theorem safe_iff {D : Type} (s : ModCtx D) (mod : ModEntry D) (record : Text)
    (event : EventList (OvmVar F)) :
    Safe inetAddr s mod (.bstr record) event ↔ Whole inetAddr record := by
  rw [Safe, rawsnareDissect, Whole]
  by_cases hlen : 40 ≤ record.bytes.length
  · rw [and_iff_right hlen]
    obtain ⟨a, hheader⟩ := (@headerToken_ok F inetAddr record .empty).mpr hlen
    have hkept : a.Kept :=
      readMembers_kept headerToken_fields kept_empty (fun _ _ => List.not_mem_nil) hheader
    have hclass : readNumber record .ushort 0 = .ok (eventClass record : Int) := by
      refine readNumber_eq_ok.mpr ⟨by rw [Number.size]; omega, ?_⟩
      rw [eventClass, Int.toNat_of_nonneg (numberAt_ushort_nonneg record 0)]
    rw [bind_of_ok hheader, bind_of_ok hclass, Int.toNat_natCast]
    split
    · rename_i hgt
      have hnot : eventClass record ∉ classes := by
        intro hin
        have hle : ∀ c ∈ classes, c ≤ 11 := by decide
        have := hle _ hin
        rw [numClass] at hgt
        omega
      exact iff_of_true ⟨_, rfl, fun _ => ⟨hkept.freeFields_perm, rfl⟩⟩ fun hin => absurd hin hnot
    · rename_i hle
      have hle : eventClass record ≤ 12 := by
        rw [numClass] at hle
        omega
      rcases @readClass_entry F inetAddr record _ hle with
        ⟨hin, read, hread⟩ | ⟨hnot, hnone⟩
      · rw [hread, forall_prop_of_true hin, ← readClass_ok hread a]
        constructor
        · rintro ⟨d, hd, -⟩
          obtain ⟨a', ha', -⟩ := bind_ok hd
          exact ⟨a', ha'⟩
        · rintro ⟨a', ha'⟩
          exact ⟨_, bind_of_ok ha' _, nofun⟩
      · rw [hnone]
        exact iff_of_true ⟨_, rfl, nofun⟩ fun hin => absurd hin hnot
  · refine iff_of_false ?_ fun h => hlen h.1
    rintro ⟨d, hd, -⟩
    obtain ⟨a, ha, -⟩ := bind_ok hd
    exact hlen ((headerToken_ok _).mp ⟨a, ha⟩)

end

/-- `mod_rawsnare`, without its fields. -/
def modRawsnare : InputModule where
  magic := modMagic
  version := orchidsVersion
  name := ascii "rawsnare"
  dependencies := [ascii "udp"]
  preConfig := none

/-- A record that ends in its header is read behind its end. -/
theorem not_safe : ¬ Safe (F := Unit) (fun _ => none) (ModCtx.empty : ModCtx Unit)
    (ModCtx.newEntry modRawsnare none)
    (.bstr { bytes := List.replicate 10 0, behind := fun _ => 0 }) [] := by
  intro h
  exact absurd ((safe_iff _ _ _ _).mp h).1 (by decide)

end RawSnare

end Orchids
