import RtThread.Ipc.MessageQueue

/-!
The way of a received Wi-Fi frame from the driver to lwIP, `drv_wlan.c` and `tcpip_adapter.c`. lwIP is known by what
`pbuf_alloc` and `netif->input` return.
-/

namespace RtThread

open List Option

inductive EspInterface
  | wifiSta
  | wifiAp
  | eth
  deriving DecidableEq

structure Esp32Wlan (N : Type) where
  netif : EspInterface
  parentNetif : Option N

structure RxFrame (E : Type) where
  buffer : Option Bytes
  len : BitVec 16
  eb : E

structure LwipAnswer (P : Type) where
  pbufAlloc : Option P
  inputOk : Bool

inductive WlanOp (N P E : Type)
  | pbufAlloc (p : P)
  | pbufTake (p : P) (buffer : Bytes) (len : BitVec 16)
  | freeRxBuffer (eb : E)
  | accepted (p : P) (netif : N)
  | refused (p : P) (netif : N)
  | pbufFree (p : P)
  deriving DecidableEq

variable {N P E : Type}

def esp32WlanifInput (netif : Option N) (frame : RxFrame E) (lwip : LwipAnswer P) : List (WlanOp N P E) :=
  match frame.buffer, netif with
  | some buffer, some netif =>
    match lwip.pbufAlloc with
    | none => []
    | some p =>
      [.pbufAlloc p, .pbufTake p buffer frame.len, .freeRxBuffer frame.eb] ++
        if lwip.inputOk then [.accepted p netif] else [.refused p netif, .pbufFree p]
  | _, _ => []

def esp32WlanGetInterface (emac : Esp32Wlan N) (interface : EspInterface) : Option N :=
  if interface = emac.netif then emac.parentNetif else none

def tcpipAdapterInput (interface : EspInterface) (emac : Esp32Wlan N) (frame : RxFrame E) (lwip : LwipAnswer P) :
    List (WlanOp N P E) :=
  match esp32WlanGetInterface emac interface with
  | none => []
  | some netif => esp32WlanifInput (some netif) frame lwip

def tcpipAdapterApInput (emac : Esp32Wlan N) (frame : RxFrame E) (lwip : LwipAnswer P) : List (WlanOp N P E) :=
  tcpipAdapterInput .wifiAp emac frame lwip

def tcpipAdapterStaInput (emac : Esp32Wlan N) (frame : RxFrame E) (lwip : LwipAnswer P) : List (WlanOp N P E) :=
  tcpipAdapterInput .wifiSta emac frame lwip

inductive RxCallback
  | apInput
  | staInput
  deriving DecidableEq

def RxCallback.interface : RxCallback → EspInterface
  | apInput => .wifiAp
  | staInput => .wifiSta

structure Delivery (P E : Type) where
  callback : RxCallback
  frame : RxFrame E
  lwip : LwipAnswer P

def Delivery.ops (emac : Esp32Wlan N) (d : Delivery P E) : List (WlanOp N P E) :=
  match d.callback with
  | .apInput => tcpipAdapterApInput emac d.frame d.lwip
  | .staInput => tcpipAdapterStaInput emac d.frame d.lwip

def Delivery.Served (emac : Esp32Wlan N) (d : Delivery P E) : Prop :=
  (d.callback.interface = emac.netif ∧ emac.parentNetif ≠ none) ∧ d.frame.buffer ≠ none ∧
  d.lwip.pbufAlloc ≠ none

def WlanOp.Settles (p : P) [DecidableEq P] : WlanOp N P E → Bool
  | accepted q _ => q = p
  | pbufFree q => q = p
  | _ => false

def ReleasedOnce [DecidableEq N] [DecidableEq P] [DecidableEq E] (eb : E) (ops : List (WlanOp N P E)) : Prop :=
  ops.count (.freeRxBuffer eb) = 1 ∧ ∀ p, .pbufAlloc p ∈ ops → ops.countP (WlanOp.Settles p) = 1

namespace Delivery

variable {emac : Esp32Wlan N} {d : Delivery P E}

theorem ops_eq (d : Delivery P E) : d.ops emac = tcpipAdapterInput d.callback.interface emac d.frame d.lwip := by
  unfold ops
  cases d.callback with
  | apInput | staInput => rfl

theorem ops_of_served (h : d.Served emac) : ∃ p netif buffer, d.ops emac =
    .pbufAlloc p :: .pbufTake p buffer d.frame.len :: .freeRxBuffer d.frame.eb ::
      if d.lwip.inputOk then [.accepted p netif] else [.refused p netif, .pbufFree p] := by
  obtain ⟨⟨hif, hnetif⟩, hbuffer, halloc⟩ := h
  obtain ⟨netif, hnetif⟩ := ne_none_iff_exists'.mp hnetif
  obtain ⟨buffer, hbuffer⟩ := ne_none_iff_exists'.mp hbuffer
  obtain ⟨p, halloc⟩ := ne_none_iff_exists'.mp halloc
  refine ⟨p, netif, buffer, ?_⟩
  rw [ops_eq, tcpipAdapterInput, esp32WlanGetInterface, if_pos hif, hnetif]
  simp only [esp32WlanifInput, hbuffer, halloc, List.cons_append, nil_append]

theorem ops_of_not_served (h : ¬ d.Served emac) : d.ops emac = [] := by
  rw [ops_eq, tcpipAdapterInput, esp32WlanGetInterface]
  by_cases hif : d.callback.interface = emac.netif
  · rw [if_pos hif]
    cases hnetif : emac.parentNetif with
    | none => rfl
    | some netif =>
      cases hbuffer : d.frame.buffer with
      | none => simp [esp32WlanifInput, hbuffer]
      | some buffer =>
        cases halloc : d.lwip.pbufAlloc with
        | none => simp [esp32WlanifInput, hbuffer, halloc]
        | some p => exact absurd ⟨⟨hif, by simp [hnetif]⟩, by simp [hbuffer], by simp [halloc]⟩ h
  · rw [if_neg hif]

end Delivery

theorem wlan_input_releases_once_iff [DecidableEq N] [DecidableEq P] [DecidableEq E] (emac : Esp32Wlan N)
    (d : Delivery P E) : ReleasedOnce d.frame.eb (d.ops emac) ↔ d.Served emac := by
  by_cases h : d.Served emac
  · apply iff_of_true _ h
    obtain ⟨p, netif, buffer, hops⟩ := Delivery.ops_of_served h
    rw [hops]
    cases d.lwip.inputOk with
    | true | false => simp [ReleasedOnce, WlanOp.Settles]
  · rw [Delivery.ops_of_not_served h]
    exact iff_of_false (by simp [ReleasedOnce]) h

theorem wlan_input_keeps_buffer :
    let emac : Esp32Wlan Unit := ⟨.wifiSta, some ()⟩
    let noBuffer : Delivery Unit Unit := ⟨.staInput, ⟨none, 0, ()⟩, ⟨some (), true⟩⟩
    let noInterface : Delivery Unit Unit := ⟨.apInput, ⟨some [1], 1, ()⟩, ⟨some (), true⟩⟩
    let noPbuf : Delivery Unit Unit := ⟨.staInput, ⟨some [1], 1, ()⟩, ⟨none, true⟩⟩
    ¬ ReleasedOnce () (noBuffer.ops emac) ∧ ¬ ReleasedOnce () (noInterface.ops emac) ∧
      ¬ ReleasedOnce () (noPbuf.ops emac) := by
  refine ⟨fun h => ?_, fun h => ?_, fun h => ?_⟩
  · exact absurd h.1 (by decide)
  · exact absurd h.1 (by decide)
  · exact absurd h.1 (by decide)

end RtThread
