import OsProjects.VirtualMemory.Malloc3.Atomic
import OsProjects.VirtualMemory.Malloc3.Srealloc
import OsProjects.VirtualMemory.Malloc3.Growth
import OsProjects.VirtualMemory.Malloc3.Mmap
import OsProjects.VirtualMemory.Malloc3.BestFit
import OsProjects.VirtualMemory.Malloc3.Both
import OsProjects.VirtualMemory.Malloc3.Coalesce
import OsProjects.VirtualMemory.Malloc3.Split
import OsProjects.VirtualMemory.Malloc3.Surgery
import OsProjects.VirtualMemory.Malloc3.Recorder
import OsProjects.VirtualMemory.Malloc3.Twice
import OsProjects.WebServer.Safety
import OsProjects.WebServer.Statistics
import OsProjects.WebServer.Random
import OsProjects.WebServer.Buffers
import OsProjects.WebServer.Uri
import OsProjects.WebServer.Static
import OsProjects.VirtualMemory.Scalloc
import OsProjects.Smash.Safety
import OsProjects.ProcessWeights.Calls
import OsProjects.VirtualMemory.Malloc1
import OsProjects.VirtualMemory.Malloc2.FirstFit
import OsProjects.Smash.Arguments
import OsProjects.Smash.BackgroundSign
import OsProjects.Smash.Pipeline
import OsProjects.Smash.Numbers
import OsProjects.Smash.MainLoop
import OsProjects.WebServer.Exchange
