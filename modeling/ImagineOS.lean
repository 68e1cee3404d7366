import ImagineOS.Dfs.Corruption
import ImagineOS.Dfs.Transactions
import ImagineOS.Dfs.Formatting
import ImagineOS.DzImage.Pack
import ImagineOS.Overlay.Emptiness
import ImagineOS.Overlay.Spending
import ImagineOS.Dfs.Listing
import ImagineOS.Dfs.Removal
import ImagineOS.Dfs.Replacement
import ImagineOS.Exec.Privileges
import ImagineOS.Exec.Waiting
import ImagineOS.Exec.Handlers
import ImagineOS.Exec.Contexts
import ImagineOS.Exec.Zombies
import ImagineOS.Exec.JobControl
import ImagineOS.Exec.Fairness
import ImagineOS.Exec.UserStack
import ImagineOS.Exec.Elf
import ImagineOS.Memory.HeapGrowth
import ImagineOS.Bootstrap.Reservation
import ImagineOS.DzImage.Safety
import ImagineOS.Ipc.Transfers
import ImagineOS.Init.Boot
import ImagineOS.Display.Screen
import ImagineOS.Display.Buffers
import ImagineOS.Permissions
import ImagineOS.Libc.HeapRuns
import ImagineOS.Shell.Parsing
import ImagineOS.Shell.Wiring
import ImagineOS.Installer.PartitionBounds
import ImagineOS.Installer.FatImage
import ImagineOS.Installer.Stores
import ImagineOS.Installer.Rejection
import ImagineOS.Login.Getty
import ImagineOS.Accounts.Database
import ImagineOS.Console.SerialInput
import ImagineOS.Console.Ansi
import ImagineOS.Console.KernelLog
import ImagineOS.Shell.Faithful
import ImagineOS.Shell.Stages
import ImagineOS.Libc.Sort
import ImagineOS.Libc.Agreement
import ImagineOS.Shell.Designation
import ImagineOS.Display.Hits
import ImagineOS.Shell.Variables
import ImagineOS.Shell.Vectors
import ImagineOS.Drivers.Keyboard
import ImagineOS.Drivers.Mouse
import ImagineOS.Display.Cascade
import ImagineOS.Shell.Exhaustion
import ImagineOS.Globalconf
