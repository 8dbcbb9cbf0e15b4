/-!
# Hosts and endpoints

A host is an address of either version of the Internet Protocol; an endpoint is a host with a port,
and, for version 6, the flow information and the scope that a socket address carries.

Endpoints are ordered: version 4 before version 6, then by host, port, flow information and scope.
The order is that of one number, the `Endpoint.rank`, in which these parts stand one behind the
other in fields of fixed width.

* `Endpoint.rank_inj`: an endpoint is determined by its rank, so the order is total and
  antisymmetric.
-/

namespace TcpStreams

/-- An address of a host. -/
inductive Host where
  /-- An address of version 4. -/
  | v4 (bits : BitVec 32)
  /-- An address of version 6. -/
  | v6 (bits : BitVec 128)
deriving DecidableEq

/-- A host together with the port on it. -/
inductive Endpoint where
  /-- A port of a host of version 4. -/
  | v4 (host : BitVec 32) (port : UInt16)
  /-- A port of a host of version 6, with the flow information and the scope it is reached by. -/
  | v6 (host : BitVec 128) (port : UInt16) (flowInfo scope : UInt32)
deriving DecidableEq

/-- A port of a host; for version 6 without flow information and scope. -/
def Host.endpoint : Host → UInt16 → Endpoint
  | .v4 bits, port => .v4 bits port
  | .v6 bits, port => .v6 bits port 0 0

namespace Endpoint

/-- The place of an endpoint in the order of endpoints. -/
def rank : Endpoint → Nat
  | v4 host port => host.toNat * 0x10000 + port.toNat
  | v6 host port flowInfo scope =>
    0x1000000000000
      + ((host.toNat * 0x10000 + port.toNat) * 0x100000000 + flowInfo.toNat) * 0x100000000
      + scope.toNat

/-- An endpoint is determined by its place in the order. -/
theorem rank_inj {a b : Endpoint} : a.rank = b.rank ↔ a = b := by
  refine ⟨fun h => ?_, fun h => h ▸ rfl⟩
  cases a with
  | v4 host port =>
    have := host.isLt
    have := port.toNat_lt
    cases b with
    | v4 host' port' =>
      have := host'.isLt
      have := port'.toNat_lt
      simp only [rank] at h
      have hhost : host = host' := BitVec.eq_of_toNat_eq (by omega)
      have hport : port = port' := UInt16.toNat_inj.1 (by omega)
      rw [hhost, hport]
    | v6 host' port' flowInfo' scope' =>
      simp only [rank] at h
      omega
  | v6 host port flowInfo scope =>
    have := port.toNat_lt
    have := flowInfo.toNat_lt
    have := scope.toNat_lt
    cases b with
    | v4 host' port' =>
      have := host'.isLt
      have := port'.toNat_lt
      simp only [rank] at h
      omega
    | v6 host' port' flowInfo' scope' =>
      have := port'.toNat_lt
      have := flowInfo'.toNat_lt
      have := scope'.toNat_lt
      simp only [rank] at h
      have hhost : host = host' := BitVec.eq_of_toNat_eq (by omega)
      have hport : port = port' := UInt16.toNat_inj.1 (by omega)
      have hflowInfo : flowInfo = flowInfo' := UInt32.toNat_inj.1 (by omega)
      have hscope : scope = scope' := UInt32.toNat_inj.1 (by omega)
      rw [hhost, hport, hflowInfo, hscope]

end Endpoint

end TcpStreams
