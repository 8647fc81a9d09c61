import DemoClass.AddressList.Delete
import DemoClass.AddressList.Session
import DemoClass.AddressList.Update
import DemoClass.Btree.Detach
import DemoClass.Btree.Exchange
import DemoClass.Btree.InOrder
import DemoClass.Btree.Memory
import DemoClass.Calc.History
import DemoClass.Calc.IllFormed
import DemoClass.Calc.Memory
import DemoClass.Calc.UnaryMinus
import DemoClass.Chatroom.Codec
import DemoClass.Chatroom.Delivery
import DemoClass.EchoServer.LongLines
import DemoClass.HashTable.Independent
import DemoClass.HashTable.Iterate
import DemoClass.HashTable.Placement
import DemoClass.Huffman.ArchiveSize
import DemoClass.Huffman.BadArchive
import DemoClass.Huffman.Inverse
import DemoClass.Huffman.Narrowed
import DemoClass.KernelList.JosephLast
import DemoClass.KernelList.JosephSurvivor
import DemoClass.KernelList.SwapSort
import DemoClass.KernelList.Walks
import DemoClass.Pthread.ProCon
import DemoClass.Pthread.ReadFile
import DemoClass.Pthread.TestMutex
import DemoClass.Select.CloseOnce
import DemoClass.Select.Requests
import DemoClass.Semaphore.SysV
import DemoClass.Slist.HeadNoloop
import DemoClass.Slist.Insertions
import DemoClass.Socket.EpollServer
import DemoClass.Socket.TcpLoop
import DemoClass.Sort.BubbleSort
import DemoClass.Sort.Comparators
import DemoClass.Sort.SelectSort
import DemoClass.Sort.ShellSort
import DemoClass.Sort.Stability
import DemoClass.Termios.Device
import DemoClass.Termios.Term
