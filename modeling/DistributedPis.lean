import DistributedPis.Esp.Relay
import DistributedPis.Esp.Loop
import DistributedPis.Esp.Recovery
import DistributedPis.Esp.Client
import DistributedPis.Pi.Recovery
import DistributedPis.Wire.Checksum
import DistributedPis.Pi.Reads
import DistributedPis.Pi.TableReads
import DistributedPis.Pi.ClientInit
import DistributedPis.Pi.Isolation
import DistributedPis.Threads.Priority
import DistributedPis.Threads.Fifo
import DistributedPis.Threads.UserContext
import DistributedPis.Shell.SendProg
import DistributedPis.Shell.Synchronize
import DistributedPis.Server.SwUart
import DistributedPis.Server.FatDir
import DistributedPis.Server.Volume
import DistributedPis.Server.UpperBits
import DistributedPis.Server.DirName
import DistributedPis.Server.CircularQueue
import DistributedPis.Server.IntToStr
import DistributedPis.Server.Gpio
import DistributedPis.Shell.PiIds
import DistributedPis.Shell.ParseLine
import DistributedPis.Uart.Timeout
import DistributedPis.Uart.RoundTrip
import DistributedPis.Libpi.Circular
import DistributedPis.Cluster.Delivery
import DistributedPis.Shell.Corruption
import DistributedPis.Shell.Session
import DistributedPis.Threads.Cooperative
import DistributedPis.Shell.Client
import DistributedPis.Server.JobFile
import DistributedPis.Server.DirEntry
import DistributedPis.Server.LongName
import DistributedPis.Libpi.Printk
import DistributedPis.Libpi.Random
import DistributedPis.Libpi.RandomArrays
import DistributedPis.Libpi.PiRandom
import DistributedPis.Cluster.Programs
import DistributedPis.Cluster.Downlink
import DistributedPis.Server.GpioPins
