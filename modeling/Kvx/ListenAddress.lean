import Mathlib.Data.List.Basic
import Kvx.Config

/-!
# The addresses that are accepted

An address is `tcp://host:port` or `unix://path`. `parse_port` leaves the port to `strtoul`, which
also reads blanks and a sign in front of it: the addresses with such a port are accepted, and no
others besides the ones that are well formed.
-/
namespace Kvx.Cli

open Kvx.Lib

inductive ListenAddress
  | tcp (host : Option (List UInt8)) (port : List UInt8)
  | unix (path : List UInt8)
  deriving DecidableEq, Repr

/-- A decimal number in 1..65535. -/
structure PortText (port : List UInt8) : Prop where
  nonempty : port ≠ []
  digit : ∀ ch ∈ port, isdigit ch
  pos : 1 ≤ digitsValue port
  limit : digitsValue port ≤ uint16Max

inductive Names : List UInt8 → ListenAddress → Prop
  | tcp {host port : List UInt8} (hostOk : colon ∉ host) (portOk : PortText port) :
      Names (tcpPrefix.bytes ++ (host ++ colon :: port))
        (.tcp (if host = [] then none else some host) port)
  | unix {path : List UInt8} (pathOk : path ≠ []) : Names (unixPrefix.bytes ++ path) (.unix path)

/-- What the pointers of the listener point to. -/
def Listening.address? (l : Listening) : Option ListenAddress :=
  match l.listener.type with
  | .tcp => l.listener.port.map fun port =>
      .tcp (l.listener.host.map fun host => (pointee l.value host).bytes)
        (pointee l.value port).bytes
  | .unix => l.listener.unixPath.map fun path => .unix (pointee l.value path).bytes

/-- The string is accepted if and only if it is an address, and then with its parts. -/
structure Exact (s : CString) (listener : ListenerConfig) : Prop where
  accepted : (parseListener s listener).accepted = true ↔ ∃ address, Names s.bytes address
  parts : ∀ address, (parseListener s listener).accepted = true → Names s.bytes address →
    (parseListener s listener).address? = some address

/-- The numbers that `strtoul` maps to a port: those behind a minus sign wrap. -/
def WrapsToPort (sign : List UInt8) (value : ℕ) : Prop :=
  if sign = [minus] then 2 ^ 64 - uint16Max ≤ value ∧ value < 2 ^ 64
  else 1 ≤ value ∧ value ≤ uint16Max

/-- A number with blanks or a sign in front of its digits. -/
def LoosePort (port : List UInt8) : Prop :=
  ∃ blanks sign digits, Spelled port blanks sign digits ∧ blanks ++ sign ≠ [] ∧
    WrapsToPort sign (digitsValue digits)

def LooseAddress (s : List UInt8) : Prop :=
  ∃ host port, s = tcpPrefix.bytes ++ (host ++ colon :: port) ∧ colon ∉ host ∧ LoosePort port

theorem parsePort_checks {port : CString} : parsePort port = true ↔
    port.bytes ≠ [] ∧ (strtoul port).erange = false ∧ port.bytes.length ≤ (strtoul port).stop ∧
      1 ≤ (strtoul port).value ∧ (strtoul port).value ≤ uint16Max := by
  have hempty : port.get 0 = 0 ↔ port.bytes = [] := by
    rw [CString.get_eq_zero, Nat.le_zero, List.length_eq_zero_iff]
  unfold parsePort
  simp only [hempty, ne_eq, CString.get_eq_zero]
  split_ifs with hnil herange hstop hvalue
  · simp [hnil]
  · simp [herange]
  · have hout : ¬ (1 ≤ (strtoul port).value ∧ (strtoul port).value ≤ uint16Max) := by omega
    simp only [hout, and_false]
  · have hin : 1 ≤ (strtoul port).value ∧ (strtoul port).value ≤ uint16Max := by omega
    simp [hnil, herange, hstop, hin]
  · simp [hstop]

theorem parsePort_eq_true {port : CString} : parsePort port = true ↔
    ∃ blanks sign digits, Spelled port.bytes blanks sign digits ∧
      WrapsToPort sign (digitsValue digits) := by
  have hmax : ulongMax = 2 ^ 64 - 1 := rfl
  have hport : uint16Max = 2 ^ 16 - 1 := rfl
  rw [parsePort_checks]
  constructor
  · rintro ⟨hempty, herange, hstop, hvalue⟩
    obtain ⟨blanks, sign, digits, hspelled⟩ := spelled_of_strtoul hempty hstop
    refine ⟨blanks, sign, digits, hspelled, ?_⟩
    rw [strtoul_spelled hspelled] at herange hvalue
    by_cases hbig : digitsValue digits > ulongMax
    · rw [if_pos hbig] at herange
      cases herange
    rw [if_neg hbig] at hvalue
    unfold WrapsToPort
    simp only at hvalue
    split_ifs at hvalue ⊢ with hsign
    · omega
    · exact hvalue
  · rintro ⟨blanks, sign, digits, hspelled, hvalue⟩
    unfold WrapsToPort at hvalue
    have hbig : ¬ digitsValue digits > ulongMax := by
      split_ifs at hvalue
      · omega
      · omega
    rw [strtoul_spelled hspelled, if_neg hbig]
    refine ⟨hspelled.bytes_ne_nil, rfl, le_rfl, ?_⟩
    simp only
    split_ifs at hvalue ⊢ with hsign
    · omega
    · exact hvalue

/-- Digits alone are a port, and with blanks or a sign in front of them a loose one. -/
theorem parsePort_iff {port : CString} :
    parsePort port = true ↔ PortText port.bytes ∨ LoosePort port.bytes := by
  rw [parsePort_eq_true]
  constructor
  · rintro ⟨blanks, sign, digits, hspelled, hvalue⟩
    by_cases hfront : blanks ++ sign = []
    · obtain ⟨rfl, rfl⟩ := List.append_eq_nil_iff.mp hfront
      have heq : port.bytes = digits := hspelled.eq
      obtain ⟨hpos, hlimit⟩ : 1 ≤ digitsValue digits ∧ digitsValue digits ≤ uint16Max := hvalue
      exact Or.inl ⟨heq ▸ hspelled.nonempty, heq ▸ hspelled.digit, heq ▸ hpos, heq ▸ hlimit⟩
    · exact Or.inr ⟨blanks, sign, digits, hspelled, hfront, hvalue⟩
  · rintro (hport | ⟨blanks, sign, digits, hspelled, -, hvalue⟩)
    · exact ⟨[], [], port.bytes, ⟨rfl, by simp, .inl rfl, hport.digit, hport.nonempty⟩,
        hport.pos, hport.limit⟩
    · exact ⟨blanks, sign, digits, hspelled, hvalue⟩

theorem LoosePort.not_portText {port : List UInt8} (h : LoosePort port) : ¬ PortText port := by
  obtain ⟨blanks, sign, digits, hspelled, hfront, -⟩ := h
  intro hport
  have hdigit : ∀ ch ∈ blanks ++ sign, isdigit ch := fun ch hch => by
    refine hport.digit ch ?_
    rw [hspelled.eq, ← List.append_assoc]
    exact List.mem_append_left _ hch
  have hblanks : blanks = [] := by
    refine List.eq_nil_iff_forall_not_mem.mpr fun ch hch => ?_
    exact isdigit_not_isspace (hdigit ch (List.mem_append_left _ hch)) (hspelled.blank ch hch)
  rw [hblanks, List.nil_append] at hfront hdigit
  rcases hspelled.signed with hsign | hsign | hsign
  · exact hfront hsign
  · exact (isdigit_not_sign (hdigit plus (hsign ▸ List.mem_singleton_self _))).1 rfl
  · exact (isdigit_not_sign (hdigit minus (hsign ▸ List.mem_singleton_self _))).2 rfl

theorem parsePort_colon {port : CString} (h : parsePort port = true) : colon ∉ port.bytes := by
  obtain ⟨blanks, sign, digits, hspelled, -⟩ := parsePort_eq_true.mp h
  rw [hspelled.eq, List.mem_append, List.mem_append]
  rintro (hmem | hmem | hmem)
  · exact absurd (hspelled.blank colon hmem) (by decide)
  · rcases hspelled.signed with rfl | rfl | rfl
    · simp at hmem
    · simp [colon, plus] at hmem
    · simp [colon, minus] at hmem
  · exact absurd (hspelled.digit colon hmem) (by decide)

variable {s : CString} {host port path : List UInt8} {listener : ListenerConfig}

theorem tcp_compared : strncmp s tcpPrefix (strlen tcpPrefix) = 0 ↔
    ∃ rest, s.bytes = tcpPrefix.bytes ++ rest := strncmp_whole

theorem unix_compared : strncmp s unixPrefix (strlen unixPrefix) = 0 ↔
    ∃ rest, s.bytes = unixPrefix.bytes ++ rest := strncmp_whole

theorem unix_not_tcp (path rest : List UInt8) :
    unixPrefix.bytes ++ path ≠ tcpPrefix.bytes ++ rest := by
  intro h
  have hhead : some (117 : UInt8) = some 116 := congrArg List.head? h
  exact absurd hhead (by decide)

theorem tcp_pointers (hs : s.bytes = tcpPrefix.bytes ++ (host ++ colon :: port)) :
    (s.drop (strlen tcpPrefix)).bytes = host ++ colon :: port ∧
      (s.drop (strlen tcpPrefix + host.length + 1)).bytes = port := by
  constructor
  · rw [CString.bytes_drop, hs]
    exact List.drop_left
  · have hsplit : s.bytes = (tcpPrefix.bytes ++ host ++ [colon]) ++ port := by
      rw [hs]
      simp only [List.append_assoc, List.cons_append, List.nil_append]
    have hlen : (tcpPrefix.bytes ++ host ++ [colon]).length =
        strlen tcpPrefix + host.length + 1 := by
      simp only [List.length_append, List.length_singleton, strlen]
    rw [CString.bytes_drop, hsplit, ← hlen]
    exact List.drop_left

theorem tcp_set (hs : s.bytes = tcpPrefix.bytes ++ (host ++ colon :: port)) :
    s.bytes.set (strlen tcpPrefix + host.length) 0 = tcpPrefix.bytes ++ (host ++ 0 :: port) := by
  have hlen : strlen tcpPrefix + host.length = (tcpPrefix.bytes ++ host).length := by
    rw [List.length_append, strlen]
  rw [hs, ← List.append_assoc, hlen, List.set_append_right _ _ le_rfl, Nat.sub_self,
    List.set_cons_zero, List.append_assoc]

theorem tcp_noNul (hs : s.bytes = tcpPrefix.bytes ++ (host ++ colon :: port)) :
    0 ∉ host ∧ 0 ∉ port := by
  have hnul := s.noNul
  rw [hs] at hnul
  simp only [List.mem_append, List.mem_cons, not_or] at hnul
  exact ⟨hnul.2.1, hnul.2.2.2⟩

/-- What a call on an address with a host and a port leaves, if it accepts the port. -/
def tcpListening (s : CString) (listener : ListenerConfig) (host : List UInt8) : Listening :=
  ⟨s.bytes.set (strlen tcpPrefix + host.length) 0,
    { listener with
      type := .tcp
      host := if host = [] then none else some (strlen tcpPrefix)
      port := some (strlen tcpPrefix + host.length + 1) },
    true⟩

theorem parseListener_tcp (hs : s.bytes = tcpPrefix.bytes ++ (host ++ colon :: port))
    (hhost : colon ∉ host) (listener : ListenerConfig) :
    parseListener s listener =
      if colon ∉ port ∧ parsePort (s.drop (strlen tcpPrefix + host.length + 1)) = true then
        tcpListening s listener host
      else ⟨s.bytes, listener, false⟩ := by
  obtain ⟨haddr, hport⟩ := tcp_pointers hs
  have hcolon : strchr (s.drop (strlen tcpPrefix)) colon = some host.length :=
    strchr_split haddr hhost
  have hsome : (strchr (s.drop (strlen tcpPrefix + host.length + 1)) colon).isSome ↔
      colon ∈ port := by
    rw [strchr, List.isSome_idxOf?, hport]
  have hfirst : (s.bytes.set (strlen tcpPrefix + host.length) 0).getD (strlen tcpPrefix) 0 ≠ 0 ↔
      host ≠ [] := by
    rw [tcp_set hs, strlen, List.getD_append_right _ _ _ _ le_rfl, Nat.sub_self]
    cases host with
    | nil => simp
    | cons ch host =>
      have hne : ch ≠ 0 := fun h => (tcp_noNul hs).1 (h ▸ List.mem_cons_self)
      simpa using hne
  unfold parseListener
  rw [if_pos (tcp_compared.mpr ⟨_, hs⟩)]
  simp only [hcolon, hsome, hfirst]
  by_cases hmore : colon ∈ port
  · simp [hmore]
  by_cases haccept : parsePort (s.drop (strlen tcpPrefix + host.length + 1)) = true
  · simp [hmore, haccept, tcpListening]
  · simp [hmore, haccept]

theorem tcpListening_address (hs : s.bytes = tcpPrefix.bytes ++ (host ++ colon :: port))
    (listener : ListenerConfig) :
    (tcpListening s listener host).address? =
      some (.tcp (if host = [] then none else some host) port) := by
  obtain ⟨hhost, hport⟩ := tcp_noNul hs
  have hpointee : (pointee (s.bytes.set (strlen tcpPrefix + host.length) 0)
      (strlen tcpPrefix)).bytes = host := by
    rw [tcp_set hs, pointee]
    have hblock : tcpPrefix.bytes ++ (host ++ 0 :: port) ++ [0] =
        tcpPrefix.bytes ++ (host ++ 0 :: (port ++ [0])) := by
      simp only [List.append_assoc, List.cons_append]
    rw [hblock]
    exact CString.ofBlock_eq hhost
  have hpointee' : (pointee (s.bytes.set (strlen tcpPrefix + host.length) 0)
      (strlen tcpPrefix + host.length + 1)).bytes = port := by
    rw [tcp_set hs, pointee]
    have hblock : tcpPrefix.bytes ++ (host ++ 0 :: port) ++ [0] =
        (tcpPrefix.bytes ++ host ++ [0]) ++ (port ++ 0 :: []) := by
      simp only [List.append_assoc, List.cons_append, List.nil_append]
    have hlen : strlen tcpPrefix + host.length + 1 = (tcpPrefix.bytes ++ host ++ [0]).length := by
      simp only [List.length_append, List.length_singleton, strlen]
    rw [hblock, hlen]
    exact CString.ofBlock_eq hport
  unfold Listening.address? tcpListening
  simp only [Option.map_some, hpointee']
  split_ifs with hnil
  · rfl
  · rw [Option.map_some, hpointee]

theorem parseListener_unix (hs : s.bytes = unixPrefix.bytes ++ path) (listener : ListenerConfig) :
    parseListener s listener =
      if path = [] then ⟨s.bytes, listener, false⟩
      else ⟨s.bytes,
        { listener with
          type := .unix
          unixPath := some (strlen unixPrefix) },
        true⟩ := by
  have htcp : ¬ strncmp s tcpPrefix (strlen tcpPrefix) = 0 := by
    rw [tcp_compared]
    rintro ⟨rest, hrest⟩
    exact unix_not_tcp path rest (hs.symm.trans hrest)
  have hempty : s.get (strlen unixPrefix) = 0 ↔ path = [] := by
    rw [CString.get_eq_zero, hs, List.length_append, strlen, ← List.length_eq_zero_iff]
    omega
  unfold parseListener
  rw [if_neg htcp, if_pos (unix_compared.mpr ⟨_, hs⟩)]
  simp only [hempty]

theorem unix_pointee (hs : s.bytes = unixPrefix.bytes ++ path) :
    (pointee s.bytes (strlen unixPrefix)).bytes = path := by
  have hnul : 0 ∉ path := by
    have hnul := s.noNul
    rw [hs, List.mem_append, not_or] at hnul
    exact hnul.2
  rw [pointee, hs, List.append_assoc]
  exact CString.ofBlock_eq hnul

theorem Names.parts {address : ListenAddress} (h : Names s.bytes address)
    (listener : ListenerConfig) :
    (parseListener s listener).accepted = true ∧
      (parseListener s listener).address? = some address := by
  obtain ⟨bytes, hbytes⟩ : ∃ bytes, s.bytes = bytes := ⟨_, rfl⟩
  rw [hbytes] at h
  cases h with
  | @tcp host port hostOk portOk =>
    obtain ⟨-, hdrop⟩ := tcp_pointers hbytes
    have haccept : parsePort (s.drop (strlen tcpPrefix + host.length + 1)) = true :=
      parsePort_iff.mpr (.inl (hdrop ▸ portOk))
    have hcolon : colon ∉ port := hdrop ▸ parsePort_colon haccept
    rw [parseListener_tcp hbytes hostOk, if_pos ⟨hcolon, haccept⟩]
    exact ⟨rfl, tcpListening_address hbytes listener⟩
  | @unix path pathOk =>
    rw [parseListener_unix hbytes, if_neg pathOk]
    exact ⟨rfl, congrArg (fun p => some (ListenAddress.unix p)) (unix_pointee hbytes)⟩

theorem parseListener_accepted : (parseListener s listener).accepted = true ↔
    (∃ address, Names s.bytes address) ∨ LooseAddress s.bytes := by
  constructor
  · intro h
    by_cases htcp : ∃ rest, s.bytes = tcpPrefix.bytes ++ rest
    · obtain ⟨rest, hrest⟩ := htcp
      by_cases hcolon : colon ∈ rest
      · obtain ⟨host, port, rfl, hhost⟩ := List.eq_append_cons_of_mem hcolon
        rw [parseListener_tcp hrest hhost] at h
        split_ifs at h with hport
        obtain ⟨-, hdrop⟩ := tcp_pointers hrest
        rcases parsePort_iff.mp hport.2 with hok | hloose
        · rw [hrest]
          exact .inl ⟨_, .tcp hhost (hdrop ▸ hok)⟩
        · exact .inr ⟨host, port, hrest, hhost, hdrop ▸ hloose⟩
      · -- without a colon there is no port
        have hdrop : (s.drop (strlen tcpPrefix)).bytes = rest := by
          rw [CString.bytes_drop, hrest]
          exact List.drop_left
        unfold parseListener at h
        rw [if_pos (tcp_compared.mpr ⟨rest, hrest⟩)] at h
        simp only [strchr_eq_none.mpr (hdrop ▸ hcolon)] at h
        exact absurd h Bool.false_ne_true
    · by_cases hunix : ∃ path, s.bytes = unixPrefix.bytes ++ path
      · obtain ⟨path, hpath⟩ := hunix
        rw [parseListener_unix hpath] at h
        split_ifs at h with hnil
        rw [hpath]
        exact .inl ⟨_, .unix hnil⟩
      · unfold parseListener at h
        rw [if_neg (mt tcp_compared.mp htcp), if_neg (mt unix_compared.mp hunix)] at h
        exact absurd h Bool.false_ne_true
  · rintro (⟨address, haddress⟩ | ⟨host, port, hs, hhost, hloose⟩)
    · exact (haddress.parts listener).1
    · obtain ⟨-, hdrop⟩ := tcp_pointers hs
      have haccept : parsePort (s.drop (strlen tcpPrefix + host.length + 1)) = true :=
        parsePort_iff.mpr (.inr (hdrop ▸ hloose))
      have hcolon : colon ∉ port := hdrop ▸ parsePort_colon haccept
      rw [parseListener_tcp hs hhost, if_pos ⟨hcolon, haccept⟩]
      rfl

theorem LooseAddress.not_names {s : List UInt8} (h : LooseAddress s) (address : ListenAddress) :
    ¬ Names s address := by
  obtain ⟨host, port, rfl, hhost, hloose⟩ := h
  generalize hs : tcpPrefix.bytes ++ (host ++ colon :: port) = s
  intro hnames
  cases hnames with
  | @tcp host' port' hostOk portOk =>
    have hrest := List.append_cancel_left hs
    have hcolon : colon ∉ port' := fun hmem => absurd (portOk.digit colon hmem) (by decide)
    obtain ⟨-, -, rfl⟩ := (List.append_cons_inj_of_notMem hostOk hcolon).mp hrest.symm
    exact hloose.not_portText portOk
  | unix pathOk => exact unix_not_tcp _ _ hs.symm

/-- The addresses are accepted exactly, unless blanks or a sign stand in front of a port that
`strtoul` then maps to 1..65535. -/
theorem listen_address_exact_iff (s : CString) (listener : ListenerConfig) :
    Exact s listener ↔ ¬ LooseAddress s.bytes := by
  constructor
  · intro hexact hloose
    obtain ⟨address, hnames⟩ := hexact.accepted.mp (parseListener_accepted.mpr (.inr hloose))
    exact hloose.not_names address hnames
  · intro hloose
    refine ⟨⟨fun h => ?_, fun ⟨address, hnames⟩ => (hnames.parts listener).1⟩,
      fun address _ hnames => (hnames.parts listener).2⟩
    exact (parseListener_accepted.mp h).resolve_right hloose

/-- `tcp://:+80` -/
def signedAddress : CString :=
  ⟨tcpPrefix.bytes ++ [colon, plus, 56, 48], by decide⟩

/-- It is accepted, with `+80` for the port. -/
theorem listen_address_signed : ¬ Exact signedAddress {} := by
  intro h
  have haccepted : (parseListener signedAddress {}).accepted = true := by decide
  obtain ⟨address, hnames⟩ := h.accepted.mp haccepted
  have hdigit : ∀ ch ∈ ([56, 48] : List UInt8), isdigit ch :=
    List.forall_mem_cons.mpr ⟨rfl, List.forall_mem_singleton.mpr rfl⟩
  have hspelled : Spelled [plus, 56, 48] [] [plus] [56, 48] :=
    ⟨rfl, fun _ hch => absurd hch List.not_mem_nil, .inr (.inl rfl), hdigit,
      List.cons_ne_nil _ _⟩
  have hport : LoosePort [plus, 56, 48] :=
    ⟨[], [plus], [56, 48], hspelled, List.cons_ne_nil _ _,
      show 1 ≤ 80 ∧ 80 ≤ uint16Max by decide⟩
  have hloose : LooseAddress signedAddress.bytes :=
    ⟨[], [plus, 56, 48], rfl, List.not_mem_nil, hport⟩
  exact hloose.not_names address hnames

end Kvx.Cli
