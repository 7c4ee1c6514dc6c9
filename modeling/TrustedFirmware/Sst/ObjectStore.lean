import TrustedFirmware.Sst.ObjectSystem
import TrustedFirmware.Sst.Proofs.Reads

/-!
# Secure storage — the object layer on the core

The object layer run over the functions of `sst_core.c`. Every function of the core is run with a
choice of failing flash calls, counted from the start of the call of the object layer, and leaves the
tables that are active afterwards in a record of committed tables.
-/

namespace Tfm.Sst

open Word32 BlockFlash Device

/-- Memory and flash of the core, the flash calls of the current call of the object layer, and the
object and block tables that were active after each function of the core. -/
structure CoreState where
  ram : Ram
  flash : Flash
  log : List (Call × Bool)
  tables : List Tables

/-- Run a function of the core. -/
def CoreState.call (cfg : Config) (fails : Nat → Bool) {α : Type} (m : SstM α) :
    StateM CoreState (Except SstErr α) := fun y =>
  -- calls are counted through the whole call of the object layer
  let o := exec device fails y.log.length m y.ram y.flash
  (o.val, ⟨o.mem, o.dev, y.log ++ o.log, y.tables ++ [activeTables cfg o.mem o.dev]⟩)

/-- The functions of the core, under a choice of failing flash calls. -/
def flashCore (cfg : Config) (fails : Nat → Bool) : CoreInterface (StateM CoreState) where
  exist uuid := CoreState.call cfg fails (sstCoreObjectExist cfg uuid)
  create uuid size := CoreState.call cfg fails (sstCoreObjectCreate cfg uuid (.ofNat size))
  write uuid data offset size :=
    CoreState.call cfg fails (sstCoreObjectWrite cfg uuid data (.ofNat offset) (.ofNat size))
  read uuid offset size :=
    CoreState.call cfg fails (sstCoreObjectRead cfg uuid (.ofNat offset) (.ofNat size))
  getInfo uuid := CoreState.call cfg fails (sstCoreObjectGetInfo cfg uuid)
  delete uuid := CoreState.call cfg fails (sstCoreObjectDelete cfg uuid)
  cryptoGetIv := fun y =>
    let iv := sstCryptoNextIv y.ram.cryptoIvBuf
    (iv, { y with ram := { y.ram with cryptoIvBuf := iv } })

/-- One call of the object layer, with its own choice of failing flash calls. -/
def objectStep (cfg : Config) (fails : Nat → Bool) (call : ObjectCall)
    (x : ObjectStatics × CoreState) : ObjectStatics × CoreState :=
  let o := sstObjectCall cfg.toBuildOptions (flashCore cfg fails) call x.1 { x.2 with log := [] }
  (o.1.2, o.2)

end Tfm.Sst
