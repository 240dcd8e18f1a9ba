import Detritus.Client.Startup
import Detritus.Server.LogStore

/-! Log records on their way to the files of the server.

A worker sends requests one after the other, and the server handles the requests of any
number of workers at once. A request that was acknowledged has been handled; one that was
not may have been lost, refused, or handled too late. Between the two, no record gets lost:
it is in a file of the server, or in a file of the worker's queue. -/
namespace Detritus.Delivery
open Files Protocol Process Contract

/-! ### The requests of a worker -/

section Worker
open Client Client.Worker
variable {ι : Type} {P : ExportCrates} {W : Worker} {env : Client.Env} {i : ι} {s u : ClientState ι}

end Worker

/-! ### From the one to the other -/

section Link
variable {κ : Type} {Y : Server.LogSystem κ} {results : κ → Except Status Unit}
  {qs : List (ExportLogsServiceRequest × Client.ExportOutcome)} {arrivals : List (Option κ)}

variable [DecidableEq κ] {entries : List (Server.LogSystem.Entry κ)} {w : Server.LogState κ}

end Link

/-! ### No record is lost -/

section Delivery
open Client Client.Worker Server.LogSystem
variable {κ ι : Type} [DecidableEq κ] {Y : Server.LogSystem κ} {P : ExportCrates} {W : Worker} {env : Client.Env} {i : ι}
  {s u : ClientState ι} {source : Server.SourceKey}

end Delivery

end Detritus.Delivery
