import Kvx.FlagOccurrence
import Kvx.ListenAddress
import Kvx.Listener

/-!
# The path of a socket

`listener_create_unix` copies the path into `sun_path` and leaves it to its caller that it fits.
`parse_config` takes any path: the last `-l` or `--listen` of a command line decides.
-/
namespace Kvx.Cli

open Kvx.Lib
open Kvx.Net (sunPathSize listenerCreateUnix listenerCreateUnix_isSome)

/-- `-l` and `--listen`. -/
def listenText : Bool → List UInt8
  | false => ['-', 'l'].map Char.toUInt8
  | true => ['-', '-', 'l', 'i', 's', 't', 'e', 'n'].map Char.toUInt8

/-- The arguments after the name of the program, and the last value of the flag. -/
inductive ListenArgs : List CString → Option CString → Prop
  | done : ListenArgs [] none
  | next {isLong : Bool} {flag value : CString} {rest : List CString} {last : Option CString}
      (text : flag.bytes = listenText isLong) (later : ListenArgs rest last) :
      ListenArgs (flag :: value :: rest) (some (last.getD value))
  | joined {isLong : Bool} {raw value : CString} {rest : List CString} {last : Option CString}
      (text : raw.bytes = listenText isLong ++ equals :: value.bytes)
      (later : ListenArgs rest last) : ListenArgs (raw :: rest) (some (last.getD value))

def listenFlag : Flag := ⟨.str, some shortListen, some longListen, 0⟩

theorem listenFlags_eq : listenFlags = some [listenFlag] := rfl

theorem listenFlag_declares {isLong : Bool} {name : List UInt8} :
    listenFlag.Declares isLong name ↔ dashes isLong ++ name = listenText isLong := by
  cases isLong with
  | false =>
    have htext : listenText false = dashes false ++ shortListen.bytes := rfl
    rw [htext, List.append_cancel_left_eq, eq_comm]
    exact Option.some_inj
  | true =>
    have htext : listenText true = dashes true ++ longListen.bytes := rfl
    rw [htext, List.append_cancel_left_eq, eq_comm]
    exact Option.some_inj

theorem listenText_name (isLong : Bool) : ∃ name, listenText isLong = dashes isLong ++ name ∧
    name ≠ [] ∧ name.head? ≠ some minus ∧ equals ∉ name := by
  cases isLong with
  | false => exact ⟨shortListen.bytes, rfl, by decide, by decide, by decide⟩
  | true => exact ⟨longListen.bytes, rfl, by decide, by decide, by decide⟩

theorem listenTable : FlagTable [listenFlag] :=
  ⟨by decide, by decide, by decide, by decide, by decide, by decide⟩

/-- The variable `listen` after it was set. -/
def setListen (vars : Vars) (value : CString) : Vars :=
  Function.update vars 0 (.str (some value))

theorem spells_next {isLong : Bool} {flag value : CString} (text : flag.bytes = listenText isLong) :
    Spells [listenFlag] [flag, value] ⟨listenFlag, value⟩ := by
  obtain ⟨name, hname, -⟩ := listenText_name isLong
  exact .next (List.mem_singleton_self _) (listenFlag_declares.mpr hname.symm)
    (text.trans hname) (by decide)

theorem spells_joined {isLong : Bool} {raw value : CString}
    (text : raw.bytes = listenText isLong ++ equals :: value.bytes) :
    Spells [listenFlag] [raw] ⟨listenFlag, value⟩ := by
  obtain ⟨name, hname, -⟩ := listenText_name isLong
  exact .joined (List.mem_singleton_self _) (listenFlag_declares.mpr hname.symm)
    (by rw [text, hname, List.append_assoc])

theorem parse_spells {args : List CString} {value : CString}
    (h : Spells [listenFlag] args ⟨listenFlag, value⟩) (rest : List CString) (vars : Vars) :
    flagParseFrom [listenFlag] (args ++ rest) vars =
      flagParseFrom [listenFlag] rest (setListen vars value) :=
  h.parse listenTable .str rest vars

theorem listenArgs_of_splits {args : List CString} {os : List Occurrence}
    (h : Splits [listenFlag] args os) : ∃ last, ListenArgs args last := by
  induction h with
  | done => exact ⟨none, .done⟩
  | @more first rest o os hspells hsplits ih =>
    obtain ⟨last, hlast⟩ := ih
    cases hspells with
    | @joined isLong name raw text f declared named spelled =>
      obtain rfl := List.mem_singleton.mp declared
      have htext : raw.bytes = listenText isLong ++ equals :: text.bytes := by
        rw [spelled, ← List.append_assoc, listenFlag_declares.mp named]
      exact ⟨_, .joined htext hlast⟩
    | @alone isLong name raw f declared named spelled isBool =>
      obtain rfl := List.mem_singleton.mp declared
      cases isBool
    | @next isLong name raw text f declared named spelled notBool =>
      obtain rfl := List.mem_singleton.mp declared
      exact ⟨_, .next (spelled.trans (listenFlag_declares.mp named)) hlast⟩

theorem ListenArgs.parse {args : List CString} {last : Option CString} (h : ListenArgs args last)
    (vars : Vars) : ∃ vars', flagParseFrom [listenFlag] args vars = (vars', none) ∧
      vars' 0 = (last.map fun value => .str (some value)).getD (vars 0) := by
  induction h generalizing vars with
  | done => exact ⟨vars, rfl, rfl⟩
  | @next isLong flag value rest last text later ih =>
    obtain ⟨vars', hparse, hset⟩ := ih (setListen vars value)
    refine ⟨vars', (parse_spells (spells_next text) rest vars).trans hparse, ?_⟩
    rw [hset]
    cases last with
    | none => exact Function.update_self 0 _ vars
    | some last => rfl
  | @joined isLong raw value rest last text later ih =>
    obtain ⟨vars', hparse, hset⟩ := ih (setListen vars value)
    refine ⟨vars', (parse_spells (spells_joined text) rest vars).trans hparse, ?_⟩
    rw [hset]
    cases last with
    | none => exact Function.update_self 0 _ vars
    | some last => rfl

theorem listenArgs_of_parse (args : List CString) (vars : Vars) {vars' : Vars}
    (h : flagParseFrom [listenFlag] args vars = (vars', none)) : ∃ last, ListenArgs args last := by
  obtain ⟨before, os, after, rfl, hsplits, hvalid, hafter⟩ := exists_splits [listenFlag] args
  rcases hafter with rfl | ⟨err, hfails⟩
  · rw [List.append_nil]
    exact listenArgs_of_splits hsplits
  · obtain ⟨vars₁, -, hparse⟩ := hsplits.parse listenTable hvalid vars
    rw [hparse, hfails.parse listenTable] at h
    cases h

theorem parseConfig_eq_some {argv : List CString} {config : Config} :
    parseConfig argv = some config ↔ ∃ listen, ListenArgs argv.tail (some listen) ∧
      (parseListener listen {}).accepted = true ∧
      config = ⟨(parseListener listen {}).value, (parseListener listen {}).listener⟩ := by
  unfold parseConfig
  rw [listenFlags_eq, Option.bind_eq_bind, Option.bind_some]
  unfold flagParse
  constructor
  · intro h
    cases hparse : flagParseFrom [listenFlag] argv.tail fun _ => .str none with
    | mk vars failed =>
      cases failed with
      | some err =>
        rw [hparse] at h
        simp at h
      | none =>
        obtain ⟨last, hargs⟩ := listenArgs_of_parse _ _ hparse
        obtain ⟨vars', hparse', hset⟩ := hargs.parse fun _ => .str none
        obtain rfl : vars = vars' := congrArg Prod.fst (hparse.symm.trans hparse')
        rw [hparse] at h
        cases last with
        | none =>
          simp only [Option.map_none, Option.getD_none] at hset
          simp [hset] at h
        | some listen =>
          simp only [Option.map_some, Option.getD_some] at hset
          simp only [hset] at h
          split_ifs at h with haccepted
          exact ⟨listen, hargs, haccepted, (Option.some.inj h).symm⟩
  · rintro ⟨listen, hargs, haccepted, rfl⟩
    obtain ⟨vars, hparse, hset⟩ := hargs.parse fun _ => .str none
    simp only [Option.map_some, Option.getD_some] at hset
    rw [hparse]
    simp only [hset, if_pos haccepted]

/-- Every path that `parse_config` accepts fits into `sun_path`. -/
def UnixFits (argv : List CString) : Prop :=
  ∀ config, parseConfig argv = some config → config.listener.type = .unix →
    ∃ p, config.listener.unixPath = some p ∧ (pointee config.value p).bytes ≠ [] ∧
      strlen (pointee config.value p) < sunPathSize ∧
      ∀ K P q, (listenerCreateUnix K P (pointee config.value p) q).isSome

/-- The last `-l` or `--listen` names a path that is too long. -/
def LongPath (argv : List CString) : Prop :=
  ∃ listen path, ListenArgs argv.tail (some listen) ∧ listen.bytes = unixPrefix.bytes ++ path ∧
    sunPathSize ≤ path.length

theorem parseConfig_unix {argv : List CString} {listen : CString} {path : List UInt8}
    (hargs : ListenArgs argv.tail (some listen)) (hs : listen.bytes = unixPrefix.bytes ++ path)
    (hpath : path ≠ []) : ∃ config, parseConfig argv = some config ∧
      config.listener.type = .unix ∧ config.listener.unixPath = some (strlen unixPrefix) ∧
      (pointee config.value (strlen unixPrefix)).bytes = path := by
  have hrun := parseListener_unix hs {}
  rw [if_neg hpath] at hrun
  have haccepted : (parseListener listen {}).accepted = true := by rw [hrun]
  refine ⟨_, parseConfig_eq_some.mpr ⟨listen, hargs, haccepted, rfl⟩, ?_, ?_, ?_⟩
  · rw [hrun]
  · rw [hrun]
  · rw [hrun]
    exact unix_pointee hs

theorem tcp_type {s : CString} {host port : List UInt8}
    (hs : s.bytes = tcpPrefix.bytes ++ (host ++ colon :: port)) (hhost : colon ∉ host) :
    (parseListener s {}).listener.type = .tcp := by
  rw [parseListener_tcp hs hhost]
  split_ifs
  · rfl
  · rfl

theorem unix_of_accepted {listen : CString} (haccepted : (parseListener listen {}).accepted = true)
    (htype : (parseListener listen {}).listener.type = .unix) :
    ∃ path, listen.bytes = unixPrefix.bytes ++ path ∧ path ≠ [] := by
  have hnot : ¬ ∃ host port, listen.bytes = tcpPrefix.bytes ++ (host ++ colon :: port) ∧
      colon ∉ host := by
    rintro ⟨host, port, hs, hhost⟩
    rw [tcp_type hs hhost] at htype
    cases htype
  obtain ⟨bytes, hbytes⟩ : ∃ bytes, listen.bytes = bytes := ⟨_, rfl⟩
  rcases parseListener_accepted.mp haccepted with ⟨address, hnames⟩ | ⟨host, port, hs, hhost, -⟩
  · rw [hbytes] at hnames
    cases hnames with
    | @tcp host port hostOk portOk => exact absurd ⟨host, port, hbytes, hostOk⟩ hnot
    | @unix path pathOk => exact ⟨path, hbytes, pathOk⟩
  · exact absurd ⟨host, port, hs, hhost⟩ hnot

theorem LongPath.not_fits {argv : List CString} (h : LongPath argv) : ¬ UnixFits argv := by
  obtain ⟨listen, path, hargs, hs, hlong⟩ := h
  have hpos : 0 < sunPathSize := by decide
  have hpath : path ≠ [] := List.ne_nil_of_length_pos (hpos.trans_le hlong)
  intro hfits
  obtain ⟨config, hparse, htype, hunix, hpointee⟩ := parseConfig_unix hargs hs hpath
  obtain ⟨p, hp, -, hlen, -⟩ := hfits config hparse htype
  obtain rfl : strlen unixPrefix = p := Option.some.inj (hunix.symm.trans hp)
  rw [strlen, hpointee] at hlen
  omega

/-- The path of a configuration fits into the socket address, unless the last `-l` or `--listen`
names one of 108 bytes or more. -/
theorem unix_path_fits_iff (argv : List CString) : UnixFits argv ↔ ¬ LongPath argv := by
  constructor
  · exact fun hfits hlong => hlong.not_fits hfits
  · intro hshort config hparse htype
    obtain ⟨listen, hargs, haccepted, rfl⟩ := parseConfig_eq_some.mp hparse
    obtain ⟨path, hs, hpath⟩ := unix_of_accepted haccepted htype
    obtain ⟨config, hparse', -, hunix, hpointee⟩ := parseConfig_unix hargs hs hpath
    obtain rfl := Option.some.inj (hparse.symm.trans hparse')
    have hlen : strlen (pointee (parseListener listen {}).value (strlen unixPrefix)) <
        sunPathSize := by
      rw [strlen, hpointee]
      exact Nat.not_le.mp fun hlong => hshort ⟨listen, path, hargs, hs, hlong⟩
    exact ⟨_, hunix, hpointee ▸ hpath, hlen,
      fun K P q => (listenerCreateUnix_isSome K P q).mpr hlen⟩

/-- `kvx -l unix://aa…a`, with a path of 108 bytes -/
def longArgv : List CString :=
  [⟨['k', 'v', 'x'].map Char.toUInt8, by decide⟩, ⟨listenText false, by decide⟩,
    ⟨unixPrefix.bytes ++ List.replicate 108 97, by decide⟩]

/-- The NUL behind the path does not fit. -/
theorem unix_path_long : ¬ UnixFits longArgv := by
  have hargs : ListenArgs longArgv.tail
      (some ⟨unixPrefix.bytes ++ List.replicate 108 97, by decide⟩) :=
    .next (show listenText false = listenText false from rfl) .done
  have hlong : LongPath longArgv :=
    ⟨_, List.replicate 108 97, hargs, rfl, by rw [List.length_replicate, sunPathSize]⟩
  exact hlong.not_fits

end Kvx.Cli
