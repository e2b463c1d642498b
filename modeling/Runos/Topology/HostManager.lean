import Runos.Lib.Table

/-!
# The switch manager and the host manager (`Switch.cc`, `HostManager.cc`)

`SwitchManager` keeps the switches with their ports; `HostManager` keeps the addresses of the ports
it was told of. Slots are called when the signal is emitted, on the state that the emitter has come
to. `HostManager` is connected to a switch from its discovery on, so it gets every `portUp`. The
hosts are not modelled, nor what only other applications are told.
-/

namespace SwitchManager

/-- `hw_addr` -/
abbrev EthAddress := BitVec 48

/-- `of13::Port` -/
structure OfPort where
  portNo : UInt32
  hwAddr : EthAddress
  deriving DecidableEq, Repr

/-- `SwitchImpl`; `alive` is `conn->alive()`. -/
structure Switch where
  alive : Bool
  port : Table UInt32 OfPort

/-- The reasons of a `PortStatus` message, `OFPPR_*`. -/
inductive Reason
  | add | delete | modify
  deriving DecidableEq, Repr

namespace Switch

/-- The constructor. -/
def init : Switch := ⟨true, ∅⟩

def ports (dp : Switch) : List OfPort := dp.port.entries.map (·.2)

def existsPort (dp : Switch) (portNo : UInt32) : Bool := (dp.port.lookup portNo).isSome

def insert (dp : Switch) (port : OfPort) : Switch :=
  { dp with port := dp.port.insert port.portNo port }

/-- `portStatus`, with the port of `portUp`. -/
def portStatus (dp : Switch) (reason : Reason) (port : OfPort) : Switch × Option OfPort :=
  match reason with
  | .add => (if dp.existsPort port.portNo then dp else dp.insert port, some port)
  | .delete => ({ dp with port := dp.port.erase port.portNo }, none)
  | .modify => (if dp.existsPort port.portNo then dp.insert port else dp, none)

/-- `portDescArrived`, with the ports of `portUp`. -/
def portDescArrived (dp : Switch) : List OfPort → Switch × List OfPort
  | [] => (dp, [])
  | port :: desc =>
    if dp.existsPort port.portNo then dp.portDescArrived desc
    else
      let r := (dp.insert port).portDescArrived desc
      (r.1, port :: r.2)

def setUp (dp : Switch) : Switch := { dp with alive := true }

def setDown (dp : Switch) : Switch := { dp with port := ∅ }

end Switch

/-- `switch_macs` -/
structure HostManager where
  switchMacs : List EthAddress
  deriving DecidableEq, Repr

namespace HostManager

def newPort (m : HostManager) (port : OfPort) : HostManager := ⟨m.switchMacs ++ [port.hwAddr]⟩

/-- The first occurrence of each address is erased. -/
def onSwitchDown (m : HostManager) (dp : Switch) : HostManager :=
  ⟨dp.ports.foldl (fun macs port => macs.erase port.hwAddr) m.switchMacs⟩

def isSwitch (m : HostManager) (mac : EthAddress) : Bool := m.switchMacs.any (· == mac)

end HostManager

/-- The switches, and the host manager. -/
structure State where
  switches : Table UInt64 Switch
  hostManager : HostManager

/-- What the switch manager is told by the controller. -/
inductive Event
  | switchUp (dpid : UInt64)
  | portDescriptions (dpid : UInt64) (desc : List OfPort)
  | portStatus (dpid : UInt64) (reason : Reason) (port : OfPort)
  | switchDown (dpid : UInt64)
  deriving DecidableEq, Repr

/-- `std::out_of_range`, from `switches.at` -/
inductive Fault
  | outOfRange
  deriving DecidableEq, Repr

namespace State

def init : State := ⟨∅, ⟨[]⟩⟩

def put (s : State) (dpid : UInt64) (dp : Switch) : State :=
  { s with switches := s.switches.insert dpid dp }

def onSwitchUp (s : State) (dpid : UInt64) : State :=
  match s.switches.lookup dpid with
  | none => s.put dpid .init
  | some dp => s.put dpid dp.setUp

/-- What a switch does that is known, with the slots that `portUp` calls. -/
def onPorts (s : State) (dpid : UInt64) (f : Switch → Switch × List OfPort) : Except Fault State :=
  match s.switches.lookup dpid with
  | none => .error .outOfRange
  | some dp =>
    .ok { s.put dpid (f dp).1 with hostManager := (f dp).2.foldl HostManager.newPort s.hostManager }

def onPortDescriptions (s : State) (dpid : UInt64) (desc : List OfPort) : Except Fault State :=
  s.onPorts dpid (·.portDescArrived desc)

def onPortStatus (s : State) (dpid : UInt64) (reason : Reason) (port : OfPort) :
    Except Fault State :=
  s.onPorts dpid fun dp => (dp.portStatus reason port).map id Option.toList

def onSwitchDown (s : State) (dpid : UInt64) : State :=
  match s.switches.lookup dpid with
  | none => s
  | some dp =>
    -- the slots of `switchDown` see the switch after `setDown`
    { s.put dpid dp.setDown with hostManager := s.hostManager.onSwitchDown dp.setDown }

/-- The controller drops the connection once the slots of its own `switchDown` have returned. -/
def dropConnection (s : State) (dpid : UInt64) : State :=
  match s.switches.lookup dpid with
  | none => s
  | some dp => s.put dpid { dp with alive := false }

/-- One event. -/
def step (s : State) : Event → Except Fault State
  | .switchUp dpid => .ok (s.onSwitchUp dpid)
  | .portDescriptions dpid desc => s.onPortDescriptions dpid desc
  | .portStatus dpid reason port => s.onPortStatus dpid reason port
  | .switchDown dpid => .ok ((s.onSwitchDown dpid).dropConnection dpid)

end State

end SwitchManager
