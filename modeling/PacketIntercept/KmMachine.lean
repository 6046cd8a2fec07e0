import PacketIntercept.CausalOrder
import PacketIntercept.Server

namespace PacketIntercept.KmMachine

open ByteMemory CheckedLoads Common LogBuffs RxHandler ReadProc HandOver TrackedCache Client
open UserProcessing CausalOrder Runs

/-- The machine with the module, user-processing and the server: passed lists
the frames that RX_HANDLER_PASS has left to the network stack. -/
structure Machine where
  up : UserProcessing.State
  passed : List Skb
  server : Server.State

/-- In receive the server's recvfrom returns the datagram of one of the passed
frames. Whether and when a frame gets to the socket is up to the stack. -/
inductive Event
  | machine (e : UserProcessing.Event)
  | receive (i : Nat)

def datagram (pkt : Skb) : List UInt8 := (List.range (pkt.udpLen - 8)).map fun b => pkt.data (28 + b)

def frames : UserProcessing.Event → List Skb
  | .packet pkt => [pkt]
  | _ => []

def step (s : Machine) : Event → Machine
  | .machine e => { s with up := UserProcessing.step s.up e, passed := s.passed ++ frames e }
  | .receive i =>
      match s.passed[i]? with
      | some pkt => { s with server := Server.step s.server ⟨.datagram (datagram pkt), s.up.clock⟩ }
      | none => s

def start (kmLog upLog serverLog : Log) (outside : Mem) : Machine :=
  ⟨UserProcessing.start kmLog upLog outside, [], Server.start serverLog⟩

def machineEvents : Event → List UserProcessing.Event
  | .machine e => [e]
  | .receive _ => []

def IsClientEvent : Event → Prop
  | .machine e => CausalOrder.IsClientEvent e
  | .receive _ => True

end PacketIntercept.KmMachine
