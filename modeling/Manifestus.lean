import Manifestus.Engine.Replicate
import Manifestus.Vault.CleanSpace
import Manifestus.Flat.Session
import Manifestus.Index.Put
import Manifestus.Index.Delete
import Manifestus.Index.Flush
import Manifestus.Index.Window
import Manifestus.Vault.Resume
import Manifestus.Index.Collect
import Manifestus.Index.Agree
import Manifestus.Index.AnyPut
import Manifestus.Index.Refused
import Manifestus.Index.Steady
import Manifestus.Vault.Waiver
import Manifestus.Spine.Wire
import Manifestus.Flat.Interleave
import Manifestus.Flat.Drain
import Manifestus.Index.Route
import Manifestus.Index.Mend
import Manifestus.Index.RunList
import Manifestus.Vault.Derive
import Manifestus.Spine.Codec
import Manifestus.Spine.Inspect
import Manifestus.Index.Map
import Manifestus.Vault.Ledger
import Manifestus.Vault.Survey
import Manifestus.Vault.Twins
import Manifestus.Vault.Converge
import Manifestus.Vault.Keys
import Manifestus.Vault.Secondary
import Manifestus.Vault.Cache
import Manifestus.Vault.Degraded
