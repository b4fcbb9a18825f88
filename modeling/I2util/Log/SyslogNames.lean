import I2util.Conf.Text
import I2util.Log.Event
import Mathlib.Data.List.Find

/-!
The names of facilities and priorities, in the tables of `ErrLogSyslog.c`.

The values come from `<syslog.h>`. An entry is compared up to the end of its own name, so
it is found for every string that goes on behind that name.
-/

namespace I2util

/-- `strncasecmp` on two C strings, in the C locale. -/
def strncasecmp (a b : List UInt8) (n : ℕ) : ℤ := strncmp (a.map tolower) (b.map tolower) n

structure CODE where
  c_name : List UInt8
  c_val : ℤ

/-- The values of `<syslog.h>`. None of them is the value that stands for an error, and the
two facilities for authorization are different. -/
structure SyslogHeader where
  LOG_EMERG : ℤ
  LOG_ALERT : ℤ
  LOG_CRIT : ℤ
  LOG_ERR : ℤ
  LOG_WARNING : ℤ
  LOG_NOTICE : ℤ
  LOG_INFO : ℤ
  LOG_DEBUG : ℤ
  LOG_KERN : ℤ
  LOG_USER : ℤ
  LOG_MAIL : ℤ
  LOG_DAEMON : ℤ
  LOG_AUTH : ℤ
  LOG_SYSLOG : ℤ
  LOG_LPR : ℤ
  LOG_NEWS : ℤ
  LOG_UUCP : ℤ
  LOG_CRON : ℤ
  LOG_AUTHPRIV : ℤ
  LOG_FTP : ℤ
  LOG_LOCAL : Fin 8 → ℤ
  valid : ∀ v ∈ [LOG_EMERG, LOG_ALERT, LOG_CRIT, LOG_ERR, LOG_WARNING, LOG_NOTICE, LOG_INFO,
    LOG_DEBUG, LOG_KERN, LOG_USER, LOG_MAIL, LOG_DAEMON, LOG_AUTH, LOG_SYSLOG, LOG_LPR, LOG_NEWS,
    LOG_UUCP, LOG_CRON, LOG_AUTHPRIV, LOG_FTP] ++ List.ofFn LOG_LOCAL, v ≠ -1
  authpriv : LOG_AUTH ≠ LOG_AUTHPRIV

namespace SyslogHeader

variable (h : SyslogHeader)

def prioritynames : List CODE :=
  [⟨ascii "alert", h.LOG_ALERT⟩, ⟨ascii "crit", h.LOG_CRIT⟩, ⟨ascii "debug", h.LOG_DEBUG⟩,
    ⟨ascii "emerg", h.LOG_EMERG⟩, ⟨ascii "err", h.LOG_ERR⟩, ⟨ascii "error", h.LOG_ERR⟩,
    ⟨ascii "info", h.LOG_INFO⟩, ⟨ascii "notice", h.LOG_NOTICE⟩, ⟨ascii "panic", h.LOG_EMERG⟩,
    ⟨ascii "warn", h.LOG_WARNING⟩, ⟨ascii "warning", h.LOG_WARNING⟩]

def facilitynames : List CODE :=
  [⟨ascii "auth", h.LOG_AUTH⟩, ⟨ascii "authpriv", h.LOG_AUTHPRIV⟩, ⟨ascii "cron", h.LOG_CRON⟩,
    ⟨ascii "daemon", h.LOG_DAEMON⟩, ⟨ascii "ftp", h.LOG_FTP⟩, ⟨ascii "kern", h.LOG_KERN⟩,
    ⟨ascii "lpr", h.LOG_LPR⟩, ⟨ascii "mail", h.LOG_MAIL⟩, ⟨ascii "news", h.LOG_NEWS⟩,
    ⟨ascii "syslog", h.LOG_SYSLOG⟩, ⟨ascii "user", h.LOG_USER⟩, ⟨ascii "uucp", h.LOG_UUCP⟩,
    ⟨ascii "local0", h.LOG_LOCAL 0⟩, ⟨ascii "local1", h.LOG_LOCAL 1⟩,
    ⟨ascii "local2", h.LOG_LOCAL 2⟩, ⟨ascii "local3", h.LOG_LOCAL 3⟩,
    ⟨ascii "local4", h.LOG_LOCAL 4⟩, ⟨ascii "local5", h.LOG_LOCAL 5⟩,
    ⟨ascii "local6", h.LOG_LOCAL 6⟩, ⟨ascii "local7", h.LOG_LOCAL 7⟩]

def linux : SyslogHeader where
  LOG_EMERG := 0
  LOG_ALERT := 1
  LOG_CRIT := 2
  LOG_ERR := 3
  LOG_WARNING := 4
  LOG_NOTICE := 5
  LOG_INFO := 6
  LOG_DEBUG := 7
  LOG_KERN := 0
  LOG_USER := 8
  LOG_MAIL := 16
  LOG_DAEMON := 24
  LOG_AUTH := 32
  LOG_SYSLOG := 40
  LOG_LPR := 48
  LOG_NEWS := 56
  LOG_UUCP := 64
  LOG_CRON := 72
  LOG_AUTHPRIV := 80
  LOG_FTP := 88
  LOG_LOCAL i := 128 + 8 * i
  valid := by decide
  authpriv := by decide

end SyslogHeader

/-- The loop over a table: the first entry whose name the string begins with. -/
def lookupCode (table : List CODE) (name : List UInt8) : ℤ :=
  match table.find? fun ptr => strncasecmp ptr.c_name name ptr.c_name.length = 0 with
  | some ptr => ptr.c_val
  | none => -1

def i2ErrLogSyslogFacility (h : SyslogHeader) (name : List UInt8) : ℤ :=
  lookupCode h.facilitynames name

def i2ErrLogSyslogPriority (h : SyslogHeader) (name : List UInt8) : ℤ :=
  -- five characters, so the end of the string is compared too
  if strncasecmp name (ascii "none") 5 = 0 then I2LOG_NONE else lookupCode h.prioritynames name

/-! ### What the names stand for -/

def SameName (a b : List UInt8) : Prop := a.map tolower = b.map tolower

instance (a b : List UInt8) : Decidable (SameName a b) :=
  inferInstanceAs (Decidable (_ = _))

def namedValue (table : List CODE) (name : List UInt8) : ℤ :=
  match table.find? fun ptr => SameName ptr.c_name name with
  | some ptr => ptr.c_val
  | none => -1

def facilityNamed (h : SyslogHeader) (name : List UInt8) : ℤ := namedValue h.facilitynames name

def priorityNamed (h : SyslogHeader) (name : List UInt8) : ℤ :=
  if SameName name (ascii "none") then I2LOG_NONE else namedValue h.prioritynames name

/-- A string that goes on behind a name. -/
def Extends (name short : List UInt8) : Prop :=
  short.map tolower <+: name.map tolower ∧ ¬SameName short name

instance (name short : List UInt8) : Decidable (Extends name short) :=
  inferInstanceAs (Decidable (_ ∧ _))

variable {table : List CODE} {name short : List UInt8} {h : SyslogHeader} {n : ℕ}

/-! ### The comparison -/

theorem tolower_eq_zero {c : UInt8} (hc : tolower c = 0) : c = 0 := by
  by_cases hupper : 65 ≤ c ∧ c ≤ 90
  · rw [tolower, if_pos hupper] at hc
    have hle := UInt8.le_iff_toNat_le.mp hupper.2
    have hge := UInt8.le_iff_toNat_le.mp hupper.1
    have hsum := congrArg UInt8.toNat hc
    rw [UInt8.toNat_add] at hsum
    simp only [UInt8.reduceToNat] at hle hge hsum
    omega
  · rwa [tolower, if_neg hupper] at hc

theorem zero_not_mem_tolower (hname : 0 ∉ name) : 0 ∉ name.map tolower := by
  intro hmem
  obtain ⟨c, hc, hzero⟩ := List.mem_map.mp hmem
  exact hname (tolower_eq_zero hzero ▸ hc)

theorem strncasecmp_eq_zero (hshort : 0 ∉ short) (hname : 0 ∉ name) (n : ℕ) :
    strncasecmp short name n = 0 ↔
      (short.map tolower).take n = (name.map tolower).take n :=
  strncmp_eq_zero (zero_not_mem_tolower hshort) (zero_not_mem_tolower hname) n

/-- Up to the length of the one name, only the beginning of the other is compared. -/
theorem strncasecmp_length (hshort : 0 ∉ short) (hname : 0 ∉ name) :
    strncasecmp short name short.length = 0 ↔ short.map tolower <+: name.map tolower := by
  rw [strncasecmp_eq_zero hshort hname, List.prefix_iff_eq_take, List.length_map,
    List.take_of_length_le (by rw [List.length_map])]

/-- With one character more the end is compared too. -/
theorem strncasecmp_succ_length (hshort : 0 ∉ short) (hname : 0 ∉ name) :
    strncasecmp name short (short.length + 1) = 0 ↔ SameName name short := by
  rw [strncasecmp_eq_zero hname hshort, SameName,
    List.take_of_length_le (l := short.map tolower) (by rw [List.length_map]; omega)]
  constructor
  · intro htake
    have hlen := congrArg List.length htake
    rw [List.length_take, List.length_map, List.length_map] at hlen
    rwa [List.take_of_length_le (by rw [List.length_map]; omega)] at htake
  · intro hsame
    rw [hsame]
    exact List.take_of_length_le (by rw [List.length_map]; omega)

theorem prefix_iff_same_or_extends :
    short.map tolower <+: name.map tolower ↔ SameName short name ∨ Extends name short := by
  constructor
  · intro hpart
    by_cases hsame : SameName short name
    · exact .inl hsame
    · exact .inr ⟨hpart, hsame⟩
  · rintro (hsame | hext)
    · have heq : short.map tolower = name.map tolower := hsame
      exact heq ▸ List.prefix_rfl
    · exact hext.1

/-! ### The loop over a table -/

/-- The names of a table are strings, and no value stands for an error. -/
structure TableOk (table : List CODE) : Prop where
  no_nul : ∀ ptr ∈ table, 0 ∉ ptr.c_name
  value : ∀ ptr ∈ table, ptr.c_val ≠ -1

theorem lookupCode_eq_find (ht : TableOk table) (hname : 0 ∉ name) :
    (table.find? fun ptr => strncasecmp ptr.c_name name ptr.c_name.length = 0) =
      table.find? fun ptr => SameName ptr.c_name name ∨ Extends name ptr.c_name := by
  apply List.find?_congr
  intro ptr hptr
  rw [decide_eq_decide, strncasecmp_length (ht.no_nul ptr hptr) hname, prefix_iff_same_or_extends]

/-- Where the string goes on behind no name, the names are compared as a whole. -/
theorem lookupCode_of_not_extends (ht : TableOk table) (hname : 0 ∉ name)
    (hnot : ∀ ptr ∈ table, ¬Extends name ptr.c_name) :
    lookupCode table name = namedValue table name := by
  have hfind : (table.find? fun ptr => SameName ptr.c_name name ∨ Extends name ptr.c_name) =
      table.find? fun ptr => SameName ptr.c_name name := by
    apply List.find?_congr
    intro ptr hptr
    rw [decide_eq_decide]
    exact or_iff_left (hnot ptr hptr)
  rw [lookupCode, lookupCode_eq_find ht hname, hfind, namedValue]

/-- A string that goes on behind a name is taken for some name. -/
theorem lookupCode_of_extends (ht : TableOk table) (hname : 0 ∉ name) {ptr : CODE}
    (hptr : ptr ∈ table) (hext : Extends name ptr.c_name) : lookupCode table name ≠ -1 := by
  rw [lookupCode, lookupCode_eq_find ht hname]
  cases hfind : table.find? fun ptr => SameName ptr.c_name name ∨ Extends name ptr.c_name with
  | none =>
      have hnone := List.find?_eq_none.mp hfind ptr hptr
      exact absurd (decide_eq_true (Or.inr hext)) hnone
  | some found => exact ht.value found (List.mem_of_find?_eq_some hfind)

/-- A string without an entry of its name has the value for an error. -/
theorem namedValue_eq_neg_one (hnone : ∀ ptr ∈ table, ¬SameName ptr.c_name name) :
    namedValue table name = -1 := by
  have hfind : (table.find? fun ptr => SameName ptr.c_name name) = none := by
    rw [List.find?_eq_none]
    intro ptr hptr htrue
    exact hnone ptr hptr (of_decide_eq_true htrue)
  rw [namedValue, hfind]

theorem Extends.congr {name' : List UInt8} (hext : Extends name short)
    (hsame : SameName name name') : Extends name' short := by
  rw [Extends, SameName, ← show name.map tolower = name'.map tolower from hsame]
  exact hext

/-- Only the lower case of a string matters. -/
theorem agrees_congr {name' : List UInt8} (hsame : SameName name name') :
    lookupCode table name = namedValue table name ↔
      lookupCode table name' = namedValue table name' := by
  have heq : name.map tolower = name'.map tolower := hsame
  have hlookup : lookupCode table name = lookupCode table name' := by
    simp only [lookupCode, strncasecmp, heq]
    rfl
  have hvalue : namedValue table name = namedValue table name' := by
    simp only [namedValue, SameName, heq]
    rfl
  rw [hlookup, hvalue]

/-- Where a string that goes on behind a name gets its own value, it is a name too. -/
theorem exists_named (ht : TableOk table) (hname : 0 ∉ name)
    (heq : lookupCode table name = namedValue table name) {ptr : CODE} (hptr : ptr ∈ table)
    (hext : Extends name ptr.c_name) :
    ∃ other ∈ table, SameName other.c_name name ∧ Extends other.c_name ptr.c_name := by
  have hfound := lookupCode_of_extends ht hname hptr hext
  by_contra hno
  apply hfound
  rw [heq]
  apply namedValue_eq_neg_one
  intro other hother hsame
  exact hno ⟨other, hother, hsame, hext.congr hsame.symm⟩

/-! ### The two tables -/

theorem names_eq (h : SyslogHeader) :
    h.facilitynames.map CODE.c_name = SyslogHeader.linux.facilitynames.map CODE.c_name ∧
      h.prioritynames.map CODE.c_name = SyslogHeader.linux.prioritynames.map CODE.c_name :=
  ⟨rfl, rfl⟩

theorem mem_facilitynames {ptr : CODE} (hptr : ptr ∈ h.facilitynames) :
    ptr.c_name ∈ SyslogHeader.linux.facilitynames.map CODE.c_name :=
  (names_eq h).1 ▸ List.mem_map_of_mem hptr

theorem mem_prioritynames {ptr : CODE} (hptr : ptr ∈ h.prioritynames) :
    ptr.c_name ∈ SyslogHeader.linux.prioritynames.map CODE.c_name :=
  (names_eq h).2 ▸ List.mem_map_of_mem hptr

theorem facilitynames_ok (h : SyslogHeader) : TableOk h.facilitynames := by
  have hnames : ∀ s ∈ SyslogHeader.linux.facilitynames.map CODE.c_name, 0 ∉ s := by decide
  refine ⟨fun ptr hptr => hnames _ (mem_facilitynames hptr), fun ptr hptr => h.valid _ ?_⟩
  simp only [SyslogHeader.facilitynames, List.mem_cons, List.not_mem_nil, or_false] at hptr
  rcases hptr with rfl | rfl | rfl | rfl | rfl | rfl | rfl | rfl | rfl | rfl | rfl | rfl | rfl |
    rfl | rfl | rfl | rfl | rfl | rfl | rfl <;> simp

theorem prioritynames_ok (h : SyslogHeader) : TableOk h.prioritynames := by
  have hnames : ∀ s ∈ SyslogHeader.linux.prioritynames.map CODE.c_name, 0 ∉ s := by decide
  refine ⟨fun ptr hptr => hnames _ (mem_prioritynames hptr), fun ptr hptr => h.valid _ ?_⟩
  simp only [SyslogHeader.prioritynames, List.mem_cons, List.not_mem_nil, or_false] at hptr
  rcases hptr with rfl | rfl | rfl | rfl | rfl | rfl | rfl | rfl | rfl | rfl | rfl <;> simp

/-- Only one name of a facility goes on behind another one. -/
theorem facility_extends : ∀ s ∈ SyslogHeader.linux.facilitynames.map CODE.c_name,
    ∀ s' ∈ SyslogHeader.linux.facilitynames.map CODE.c_name,
      Extends s s' → s = ascii "authpriv" := by
  decide +kernel

theorem priority_extends : ∀ s ∈ SyslogHeader.linux.prioritynames.map CODE.c_name,
    ∀ s' ∈ SyslogHeader.linux.prioritynames.map CODE.c_name,
      Extends s s' → s = ascii "error" ∨ s = ascii "warning" := by
  decide +kernel

/-- The facility is that of the name, unless the string goes on behind one of the names:
"authpriv" goes on behind "auth", so it is never found. -/
theorem facility_eq_named_iff (h : SyslogHeader) (hname : 0 ∉ name) :
    i2ErrLogSyslogFacility h name = facilityNamed h name ↔
      ∀ ptr ∈ h.facilitynames, ¬Extends name ptr.c_name := by
  constructor
  · intro heq ptr hptr hext
    obtain ⟨other, hother, hsame, hboth⟩ :=
      exists_named (facilitynames_ok h) hname heq hptr hext
    rw [facility_extends _ (mem_facilitynames hother) _ (mem_facilitynames hptr) hboth] at hsame
    exact h.authpriv ((@agrees_congr h.facilitynames _ _ hsame).mpr heq)
  · exact lookupCode_of_not_extends (facilitynames_ok h) hname

/-- "error" and "warning" go on behind names that have their values. -/
theorem priority_table_iff (h : SyslogHeader) (hname : 0 ∉ name) :
    lookupCode h.prioritynames name = namedValue h.prioritynames name ↔
      (∀ ptr ∈ h.prioritynames, ¬Extends name ptr.c_name) ∨
        SameName (ascii "error") name ∨ SameName (ascii "warning") name := by
  constructor
  · intro heq
    by_cases hnot : ∀ ptr ∈ h.prioritynames, ¬Extends name ptr.c_name
    · exact .inl hnot
    · obtain ⟨ptr, hptr, hext⟩ : ∃ ptr ∈ h.prioritynames, Extends name ptr.c_name := by
        simpa only [not_forall, not_not, exists_prop] using hnot
      obtain ⟨other, hother, hsame, hboth⟩ :=
        exists_named (prioritynames_ok h) hname heq hptr hext
      rcases priority_extends _ (mem_prioritynames hother) _ (mem_prioritynames hptr) hboth with
        herror | hwarning
      · exact .inr (.inl (herror ▸ hsame))
      · exact .inr (.inr (hwarning ▸ hsame))
  · rintro (hnot | hsame | hsame)
    · exact lookupCode_of_not_extends (prioritynames_ok h) hname hnot
    · exact (@agrees_congr h.prioritynames _ _ hsame).mp rfl
    · exact (@agrees_congr h.prioritynames _ _ hsame).mp rfl

theorem priority_eq_named_iff (h : SyslogHeader) (hname : 0 ∉ name) :
    i2ErrLogSyslogPriority h name = priorityNamed h name ↔
      (∀ ptr ∈ h.prioritynames, ¬Extends name ptr.c_name) ∨
        SameName (ascii "error") name ∨ SameName (ascii "warning") name := by
  have hnone : strncasecmp name (ascii "none") 5 = 0 ↔ SameName name (ascii "none") :=
    strncasecmp_succ_length (by decide) hname
  by_cases hsame : SameName name (ascii "none")
  · -- no name of the table begins like "none"
    have hnot : ∀ ptr ∈ h.prioritynames, ¬Extends name ptr.c_name := by
      intro ptr hptr hext
      have hall : ∀ s ∈ SyslogHeader.linux.prioritynames.map CODE.c_name,
          ¬Extends (ascii "none") s := by decide
      exact hall _ (mem_prioritynames hptr) (hext.congr hsame)
    rw [i2ErrLogSyslogPriority, if_pos (hnone.mpr hsame), priorityNamed, if_pos hsame]
    exact ⟨fun _ => .inl hnot, fun _ => rfl⟩
  · rw [i2ErrLogSyslogPriority, if_neg (mt hnone.mp hsame), priorityNamed, if_neg hsame]
    exact priority_table_iff h hname

/-- When the two functions compare names as a whole. -/
theorem i2ErrLogSyslog_names_iff (h : SyslogHeader) (name : List UInt8) (hname : 0 ∉ name) :
    (i2ErrLogSyslogFacility h name = facilityNamed h name ↔
      ∀ ptr ∈ h.facilitynames, ¬Extends name ptr.c_name) ∧
    (i2ErrLogSyslogPriority h name = priorityNamed h name ↔
      (∀ ptr ∈ h.prioritynames, ¬Extends name ptr.c_name) ∨
        SameName (ascii "error") name ∨ SameName (ascii "warning") name) :=
  ⟨facility_eq_named_iff h hname, priority_eq_named_iff h hname⟩

theorem i2ErrLogSyslog_names_iff_warning :
    (i2ErrLogSyslogFacility .linux (ascii "WARNING") = facilityNamed .linux (ascii "WARNING") ↔
      ∀ ptr ∈ SyslogHeader.linux.facilitynames, ¬Extends (ascii "WARNING") ptr.c_name) ∧
    (i2ErrLogSyslogPriority .linux (ascii "WARNING") = priorityNamed .linux (ascii "WARNING") ↔
      (∀ ptr ∈ SyslogHeader.linux.prioritynames, ¬Extends (ascii "WARNING") ptr.c_name) ∨
        SameName (ascii "error") (ascii "WARNING") ∨
        SameName (ascii "warning") (ascii "WARNING")) :=
  i2ErrLogSyslog_names_iff .linux (ascii "WARNING") (by decide)

/-- A name of the table that is taken for a shorter one, and strings that are no names. -/
theorem i2ErrLogSyslog_taken_for_names :
    i2ErrLogSyslogFacility .linux (ascii "authpriv") = SyslogHeader.linux.LOG_AUTH ∧
      facilityNamed .linux (ascii "authpriv") = SyslogHeader.linux.LOG_AUTHPRIV ∧
      SyslogHeader.linux.LOG_AUTH ≠ SyslogHeader.linux.LOG_AUTHPRIV ∧
      i2ErrLogSyslogFacility .linux (ascii "maildrop") ≠ facilityNamed .linux (ascii "maildrop") ∧
      i2ErrLogSyslogPriority .linux (ascii "emergency") ≠
        priorityNamed .linux (ascii "emergency") := by
  decide

/-! ### The names of values -/

/-- The loop over a table: the name of the first entry with the value. -/
def lookupName (table : List CODE) (fac : ℤ) : Option (List UInt8) :=
  (table.find? fun ptr => ptr.c_val = fac).map CODE.c_name

def i2ErrLogSyslogFacilityName (h : SyslogHeader) (fac : ℤ) : Option (List UInt8) :=
  lookupName h.facilitynames fac

def i2ErrLogSyslogPriorityName (h : SyslogHeader) (fac : ℤ) : Option (List UInt8) :=
  if fac = I2LOG_NONE then some (ascii "none") else lookupName h.prioritynames fac

theorem exists_of_lookupName {v : ℤ} (hname : lookupName table v = some name) :
    ∃ ptr ∈ table, ptr.c_val = v ∧ ptr.c_name = name := by
  obtain ⟨ptr, hfind, hptr⟩ := Option.map_eq_some_iff.mp hname
  exact ⟨ptr, List.mem_of_find?_eq_some hfind, by simpa using List.find?_some hfind, hptr⟩

theorem lookupName_isSome (hvalue : lookupCode table name ≠ -1) :
    (lookupName table (lookupCode table name)).isSome := by
  rw [lookupCode] at hvalue ⊢
  cases hfind : table.find? fun ptr => strncasecmp ptr.c_name name ptr.c_name.length = 0 with
  | none =>
      rw [hfind] at hvalue
      exact absurd rfl hvalue
  | some ptr =>
      rw [lookupName, Option.isSome_map, List.find?_isSome]
      exact ⟨ptr, List.mem_of_find?_eq_some hfind, decide_eq_true rfl⟩

/-- The name of an entry stands for its value when no two names are the same. -/
theorem namedValue_of_mem (hdistinct : (table.map CODE.c_name).Pairwise fun a b => ¬SameName a b)
    {ptr : CODE} (hptr : ptr ∈ table) : namedValue table ptr.c_name = ptr.c_val := by
  induction table with
  | nil => cases hptr
  | cons head table ih =>
      obtain ⟨hhead, hrest⟩ := List.pairwise_cons.mp hdistinct
      rcases List.mem_cons.mp hptr with rfl | hptr
      · have hsame : SameName ptr.c_name ptr.c_name := rfl
        rw [namedValue, List.find?_cons_of_pos (by simpa using hsame)]
      · have hne : ¬SameName head.c_name ptr.c_name := hhead _ (List.mem_map_of_mem hptr)
        rw [namedValue, List.find?_cons_of_neg (by simpa using hne)]
        exact ih hrest hptr

theorem names_distinct :
    ((SyslogHeader.linux.facilitynames.map CODE.c_name).Pairwise fun a b => ¬SameName a b) ∧
      (SyslogHeader.linux.prioritynames.map CODE.c_name).Pairwise fun a b => ¬SameName a b := by
  decide

theorem facility_of_mem {ptr : CODE} (hptr : ptr ∈ h.facilitynames)
    (hne : ptr.c_name ≠ ascii "authpriv") : i2ErrLogSyslogFacility h ptr.c_name = ptr.c_val := by
  have hname := (facilitynames_ok h).no_nul ptr hptr
  rw [(facility_eq_named_iff h hname).mpr]
  · exact namedValue_of_mem ((names_eq h).1 ▸ names_distinct.1) hptr
  · intro other hother hext
    exact hne (facility_extends _ (mem_facilitynames hptr) _ (mem_facilitynames hother) hext)

theorem priority_of_mem {ptr : CODE} (hptr : ptr ∈ h.prioritynames) :
    i2ErrLogSyslogPriority h ptr.c_name = ptr.c_val := by
  have hname := (prioritynames_ok h).no_nul ptr hptr
  have hall : ∀ s ∈ SyslogHeader.linux.prioritynames.map CODE.c_name,
      ¬SameName s (ascii "none") := by decide
  rw [(priority_eq_named_iff h hname).mpr, priorityNamed, if_neg (hall _ (mem_prioritynames hptr))]
  · exact namedValue_of_mem ((names_eq h).2 ▸ names_distinct.2) hptr
  · by_cases hnot : ∀ other ∈ h.prioritynames, ¬Extends ptr.c_name other.c_name
    · exact .inl hnot
    · obtain ⟨other, hother, hext⟩ : ∃ other ∈ h.prioritynames,
          Extends ptr.c_name other.c_name := by
        simpa only [not_forall, not_not, exists_prop] using hnot
      rcases priority_extends _ (mem_prioritynames hptr) _ (mem_prioritynames hother) hext with
        herror | hwarning
      · exact .inr (.inl (herror ▸ rfl))
      · exact .inr (.inr (hwarning ▸ rfl))

/-- The name of a facility gives the facility back, but for the one of "authpriv". -/
theorem facility_of_name {v : ℤ} (hname : i2ErrLogSyslogFacilityName h v = some name) :
    i2ErrLogSyslogFacility h name = v ↔ v ≠ h.LOG_AUTHPRIV := by
  constructor
  · rintro hv rfl
    have hfirst : i2ErrLogSyslogFacilityName h h.LOG_AUTHPRIV = some (ascii "authpriv") := by
      simp [i2ErrLogSyslogFacilityName, lookupName, SyslogHeader.facilitynames, h.authpriv]
    obtain rfl := Option.some.inj (hfirst.symm.trans hname)
    exact h.authpriv hv
  · intro hv
    obtain ⟨ptr, hptr, rfl, rfl⟩ := exists_of_lookupName hname
    refine facility_of_mem hptr fun hauth => hv ?_
    rw [← namedValue_of_mem ((names_eq h).1 ▸ names_distinct.1) hptr, hauth]
    rfl

theorem priority_of_name {v : ℤ} (hname : i2ErrLogSyslogPriorityName h v = some name) :
    i2ErrLogSyslogPriority h name = v := by
  rw [i2ErrLogSyslogPriorityName] at hname
  split at hname
  · rename_i hnone
    obtain rfl := Option.some.inj hname
    exact hnone.symm
  · obtain ⟨ptr, hptr, rfl, rfl⟩ := exists_of_lookupName hname
    exact priority_of_mem hptr

/-- The name of a value gives the value back, but for the facility of "authpriv". Every value
that a string stands for has a name. -/
theorem i2ErrLogSyslog_names_back (h : SyslogHeader) :
    (∀ v name, i2ErrLogSyslogFacilityName h v = some name →
      (i2ErrLogSyslogFacility h name = v ↔ v ≠ h.LOG_AUTHPRIV)) ∧
    (∀ v name, i2ErrLogSyslogPriorityName h v = some name → i2ErrLogSyslogPriority h name = v) ∧
    ∀ name,
      (i2ErrLogSyslogFacility h name ≠ -1 →
        (i2ErrLogSyslogFacilityName h (i2ErrLogSyslogFacility h name)).isSome) ∧
      (i2ErrLogSyslogPriority h name ≠ -1 →
        (i2ErrLogSyslogPriorityName h (i2ErrLogSyslogPriority h name)).isSome) := by
  refine ⟨fun v name => facility_of_name, fun v name => priority_of_name, fun name =>
    ⟨lookupName_isSome, fun hvalue => ?_⟩⟩
  by_cases hnone : strncasecmp name (ascii "none") 5 = 0
  · rw [i2ErrLogSyslogPriority, if_pos hnone, i2ErrLogSyslogPriorityName, if_pos rfl]
    rfl
  · rw [i2ErrLogSyslogPriority, if_neg hnone] at hvalue ⊢
    rw [i2ErrLogSyslogPriorityName]
    split
    · rfl
    · exact lookupName_isSome hvalue

end I2util
