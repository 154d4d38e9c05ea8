import SimpleMicrokernel.Memory.Taken
import SimpleMicrokernel.Fs.Reads
import SimpleMicrokernel.Fs.PastEnd
import SimpleMicrokernel.Fs.Union
import SimpleMicrokernel.Fs.Divides
import SimpleMicrokernel.Fs.Boot
import SimpleMicrokernel.Fat16.Overread
import SimpleMicrokernel.Fat16.Live
import SimpleMicrokernel.Fat16.Lookup
import SimpleMicrokernel.Paging.Free
import SimpleMicrokernel.Task.Image
import SimpleMicrokernel.Kernel.Writes
import SimpleMicrokernel.Kernel.Kept
import SimpleMicrokernel.Task.AllOrNothing
import SimpleMicrokernel.Kernel.Preempt
import SimpleMicrokernel.Kernel.Copy
import SimpleMicrokernel.Task.Clean
import SimpleMicrokernel.Fs.Folding
import SimpleMicrokernel.Gdt.Gdt
import SimpleMicrokernel.Terminal.Uint
import SimpleMicrokernel.Terminal.Reference
import SimpleMicrokernel.Fat16.Resolve
import SimpleMicrokernel.Fs.Apart
import SimpleMicrokernel.Kernel.Descriptors
import SimpleMicrokernel.Idt.Vectors
import SimpleMicrokernel.Disk.Ata
import SimpleMicrokernel.Kernel.Write
import SimpleMicrokernel.Kernel.Boot
import SimpleMicrokernel.Kernel.Files
import SimpleMicrokernel.Lib.Ia32
import SimpleMicrokernel.Kernel.Blank
import SimpleMicrokernel.Gdt.Selectors
