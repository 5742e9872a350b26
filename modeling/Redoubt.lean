import Redoubt.Crypto.Digests
import Redoubt.Crypto.FieldExact
import Redoubt.Kernel.AuthoritySafety
import Redoubt.Kernel.ImageLoading
import Redoubt.Kernel.IpcSafety
import Redoubt.Kernel.LifecycleSafety
import Redoubt.Kernel.TaskRuns
import Redoubt.Services.Manifest
import Redoubt.Services.ProgramFetch
import Redoubt.Services.Restarts
import Redoubt.Storage.AppCrash
import Redoubt.Storage.AppListing
import Redoubt.Storage.Formats
import Redoubt.Storage.Formatting
import Redoubt.Storage.ServiceRuns
import Redoubt.Storage.SettingsRuns
import Redoubt.Storage.StreamedLoads
import Redoubt.Storage.UpdateWear
