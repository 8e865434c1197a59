import Kvx.Flag

/-!
# The configuration

A pointer into the argument is an offset in it. `parse_listener` writes a NUL into the argument
itself, where the host ends.
-/
namespace Kvx.Cli

open Kvx.Lib

def uint16Max : ℕ := 2 ^ 16 - 1

def colon : UInt8 := 58

def parsePort (port : CString) : Bool :=
  if port.get 0 = 0 then false
  else
    let value := strtoul port
    if value.erange then false
    else if port.get value.stop ≠ 0 then false
    else if value.value = 0 ∨ value.value > uint16Max then false
    else true

inductive ListenerType
  | tcp
  | unix
  deriving DecidableEq, Repr

/-- `listener_config_t`; its default is `{0}`. -/
structure ListenerConfig where
  type : ListenerType := .tcp
  host : Option ℕ := none
  port : Option ℕ := none
  unixPath : Option ℕ := none
  deriving DecidableEq, Repr

def tcpPrefix : CString := ⟨['t', 'c', 'p', ':', '/', '/'].map Char.toUInt8, by decide⟩
def unixPrefix : CString := ⟨['u', 'n', 'i', 'x', ':', '/', '/'].map Char.toUInt8, by decide⟩

/-- What a call of `parse_listener` leaves: the bytes of the argument, the listener and the
result. -/
structure Listening where
  value : List UInt8
  listener : ListenerConfig
  accepted : Bool
  deriving DecidableEq, Repr

def parseListener (value : CString) (listener : ListenerConfig) : Listening :=
  if strncmp value tcpPrefix (strlen tcpPrefix) = 0 then
    let addr := strlen tcpPrefix
    match strchr (value.drop addr) colon with
    | none => ⟨value.bytes, listener, false⟩
    | some i =>
        let port := addr + i + 1
        if (strchr (value.drop port) colon).isSome then ⟨value.bytes, listener, false⟩
        else if ¬ parsePort (value.drop port) then ⟨value.bytes, listener, false⟩
        else
          let bytes := value.bytes.set (addr + i) 0
          ⟨bytes,
            { listener with
              type := .tcp
              host := if bytes.getD addr 0 ≠ 0 then some addr else none
              port := some port },
            true⟩
  else if strncmp value unixPrefix (strlen unixPrefix) = 0 then
    let path := strlen unixPrefix
    if value.get path = 0 then ⟨value.bytes, listener, false⟩
    else ⟨value.bytes, { listener with type := .unix, unixPath := some path }, true⟩
  else ⟨value.bytes, listener, false⟩

/-- `config_t`, and the bytes of the argument that its pointers point into. -/
structure Config where
  value : List UInt8
  listener : ListenerConfig
  deriving DecidableEq, Repr

/-- The string that a pointer into an argument points to. -/
def pointee (value : List UInt8) (p : ℕ) : CString := .ofBlock (value ++ [0]) p

def shortListen : CString := ⟨['l'].map Char.toUInt8, by decide⟩
def longListen : CString := ⟨['l', 'i', 's', 't', 'e', 'n'].map Char.toUInt8, by decide⟩

/-- The table after `flag_str` in `parse_config`. -/
def listenFlags : Option (List Flag) := flagStr [] (some shortListen) (some longListen) 0

/-- The first call of `parse_config`. -/
def parseConfig (argv : List CString) : Option Config := do
  let flags ← listenFlags
  match flagParse flags argv fun _ => .str none with
  | (_, some _) => none
  | (vars, none) =>
      match vars 0 with
      | .str (some listen) =>
          let l := parseListener listen {}
          if l.accepted then some ⟨l.value, l.listener⟩ else none
      | _ => none

end Kvx.Cli
