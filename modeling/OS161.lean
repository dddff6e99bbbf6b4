import OS161.Vm.TlbConsistency
import OS161.Vm.Isolation
import OS161.Vm.Regions
import OS161.Thread.Ends
import OS161.Vm.Boot
import OS161.Thread.Capacity
import OS161.Thread.RoundRobin
import OS161.Thread.Cv
import OS161.Asst1.Admission
import OS161.Vm.RegionPages
import OS161.Userprog.Arguments
import OS161.Thread.ForkWait
import OS161.Sfs.SparseFile
import OS161.Thread.HashtableMap
import OS161.Thread.WaitErrors
import OS161.Vm.Spl
import OS161.Kheap.Backing
import OS161.Libc.MallocSizes
import OS161.Vm.PageMap
import OS161.Userprog.LoadPage
import OS161.Sfs.VolumeRun
import OS161.Kern.BlockArray
import OS161.Kern.BitmapRun
import OS161.Sfs.ReadExact
import OS161.Fs.Getdevice
import OS161.Userprog.CopyInOut
import OS161.Libc.Snprintf
import OS161.Libc.Memmove
import OS161.Libc.Strtok
