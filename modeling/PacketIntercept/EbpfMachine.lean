import PacketIntercept.EbpfCompleteness
import PacketIntercept.Server

namespace PacketIntercept.EbpfMachine

open ByteMemory CheckedLoads Common XdpSockProg FrameGrammar ClientFrame KernelMaps LogBuffs
open EbpfMeasure EbpfPipeline EbpfCompleteness Runs

/-- The machine with the XDP program, ebpf_measure_user and the server: passed
lists the frames that XDP_PASS has left to the network stack. -/
structure Machine where
  us : EbpfMeasure.State
  passed : List Frame
  server : Server.State

inductive Event
  | machine (e : EbpfMeasure.Event)
  | receive (i : Nat)

/-- The UDP payload of a frame without VLAN tags and IP options. -/
def datagram (f : Frame) : List UInt8 := (f.drop payloadOffset).take (be16 (bytes f) 38 - 8)

def frames : EbpfMeasure.Event → List Frame
  | .frame f _ _ => [f]
  | _ => []

def step (s : Machine) : Event → Machine
  | .machine e => { s with us := EbpfMeasure.step s.us e, passed := s.passed ++ frames e }
  | .receive i =>
      match s.passed[i]? with
      | some f => { s with server := Server.step s.server ⟨.datagram (datagram f), s.us.clock⟩ }
      | none => s

def start (usLog serverLog : Log) : Machine := ⟨started usLog, [], Server.start serverLog⟩

def machineEvents : Event → List EbpfMeasure.Event
  | .machine e => [e]
  | .receive _ => []

def IsClientEvent : Event → Prop
  | .machine e => EbpfCompleteness.IsClientEvent e
  | .receive _ => True

end PacketIntercept.EbpfMachine
